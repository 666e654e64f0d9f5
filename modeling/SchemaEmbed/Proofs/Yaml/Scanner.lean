import SchemaEmbed.Proofs.Yaml.Literal
import SchemaEmbed.Yaml.Token.Stream

namespace SchemaEmbed.Yaml

/-!
# Tokens one after the other

The scanner reads a text token by token, and before each one it passes blanks, forgets places at
which a key could have begun, and closes blocks. To say what it reads from a text, its state is
described at three points:

* `At` — what it is in a block where no key can end, with its text from here on;
* `Ready` — what it is at the next token, after blanks were passed, stale places of keys dropped
  and blocks closed;
* `Rests` — what it is after a node, when blocks inside of the node are still open;
* `Leads` — a scanner comes to another one by reading tokens, whatever the fuel.

After a node it is not known yet how many blocks end with it: this is decided by the column of the
next token. So `Rests` does not name the blocks that are open, but says that they come to the right
ones once those inside of the node are closed.
-/

namespace Scanner

/-! ### Readings

The scanner is run with fuel, one for each character and one more, so that it never runs out. What
it reads is put together from parts whose fuel is not known exactly; `Leads` says no more of the
fuel than that it stays enough.
-/

/-- Whether a scanner comes to another one by reading tokens: both read the same in the end, and
    the fuel that is enough for the one leaves enough for the other. -/
def Leads (s s' : Scanner) : Prop :=
  ∀ fuel, s.cursor.rest.length < fuel →
    ∃ fuel', s'.cursor.rest.length < fuel' ∧ s.run fuel = s'.run fuel'

/-- A scanner comes to itself by reading nothing. -/
theorem Leads.refl (s : Scanner) : Leads s s := fun fuel h => ⟨fuel, h, rfl⟩

/-- What is read in two parts is read, with the fuel that the first part leaves. -/
theorem Leads.trans {s s' s'' : Scanner} (h : Leads s s') (h' : Leads s' s'') : Leads s s'' := by
  intro fuel hfuel
  obtain ⟨fuel', hfuel', heq⟩ := h fuel hfuel
  obtain ⟨fuel'', hfuel'', heq'⟩ := h' fuel' hfuel'
  exact ⟨fuel'', hfuel'', heq.trans heq'⟩

/-- A scanner comes to another one by reading one token that has a character at least, and is not
    the last one. -/
theorem Leads.of_next {s s' : Scanner} (h : s.next = .ok s')
    (hlength : s'.cursor.rest.length < s.cursor.rest.length)
    (hlast : s'.tokens.back? ≠ some .streamEnd) : Leads s s' := by
  intro fuel hfuel
  obtain ⟨fuel, rfl⟩ : ∃ k, fuel = k + 1 := ⟨fuel - 1, by omega⟩
  refine ⟨fuel, by omega, ?_⟩
  rw [run, h, ok_bind, if_neg]
  simpa using hlast

/-! ### What a scanner is

The three descriptions have the same parameters, so that a lemma on one step reads like a rule:
from the tokens, the open blocks and the column before it to those after it.
-/

/-- What a scanner is in block context where no key can end: its tokens so far, the column of the
    open block, those of the blocks around it, its own column, whether a key may begin, and the
    text from here on. -/
structure At (s : Scanner) (tokens : Array Token) (indent : Int) (outer : List Int) (column : Nat)
    (keyAllowed : Bool) (rest : List Char) : Prop where
  tokens : s.tokens = tokens
  indent : s.indent = indent
  outer : s.outer = outer
  column : s.cursor.column = column
  keyAllowed : s.keyAllowed = keyAllowed
  rest : s.cursor.rest = rest
  place : s.place.possible = false
  places : s.places = []

/-- What a scanner is at the next token, once blocks were closed. -/
def Ready (s : Scanner) (tokens : Array Token) (indent : Int) (outer : List Int) (column : Nat)
    (keyAllowed : Bool) (rest : List Char) : Prop :=
  ∃ s', s.approach = .ok s' ∧ rest.length ≤ s.cursor.rest.length
    ∧ At (s'.closeBlocks s'.cursor.column) tokens indent outer column keyAllowed rest

/-- What a scanner is after a node, at a token at `column`: blocks inside of the node are
    still open, but when those right of a column within `indent` are closed, all of them
    are. -/
def Rests (s : Scanner) (tokens : Array Token) (indent : Int) (outer : List Int) (column : Nat)
    (rest : List Char) : Prop :=
  ∃ s' tokens' indent' outer', s.approach = .ok s' ∧ rest.length ≤ s.cursor.rest.length
    ∧ At s' tokens' indent' outer' column true rest
    ∧ ∀ column ≤ indent,
      closeBlocksFrom column indent' outer' tokens' = closeBlocksFrom column indent outer tokens

section States

variable {s : Scanner} {tokens : Array Token} {indent : Int} {outer : List Int} {column : Nat}
  {keyAllowed : Bool} {rest : List Char}

/-- A block that is not right of a column stays open when the blocks right of the column are
    closed, and so do those around it. -/
theorem closeBlocksFrom_self {column : Int} (h : indent ≤ column) :
    closeBlocksFrom column indent outer tokens = (indent, outer, tokens) := by
  cases outer with
  | nil => rfl
  | cons next outer => rw [closeBlocksFrom, if_neg (by omega)]

/-- Where no flow collection is open, the blocks right of a column are closed: the columns and
    the tokens are what `closeBlocksFrom` makes of them. -/
theorem closeBlocks_of_places (h : s.places = []) (column : Int) :
    s.closeBlocks column
      = { s with
          indent := (closeBlocksFrom column s.indent s.outer s.tokens).1
          outer := (closeBlocksFrom column s.indent s.outer s.tokens).2.1
          tokens := (closeBlocksFrom column s.indent s.outer s.tokens).2.2 } := by
  unfold closeBlocks inFlow
  rw [h]
  rfl

/-- Closing blocks changes the tokens and the open blocks, and nothing else. -/
theorem At.closeBlocks (h : At s tokens indent outer column keyAllowed rest) {column' : Int}
    {tokens' : Array Token} {indent' : Int} {outer' : List Int}
    (hclose : closeBlocksFrom column' indent outer tokens = (indent', outer', tokens')) :
    At (s.closeBlocks column') tokens' indent' outer' column keyAllowed rest := by
  rw [closeBlocks_of_places h.places, h.indent, h.outer, h.tokens, hclose]
  exact ⟨rfl, rfl, rfl, h.column, h.keyAllowed, h.rest, h.place, h.places⟩

/-- At a column that no open block is right of, the scanner is ready. -/
theorem ready_of_at {s' : Scanner} (happroach : s.approach = .ok s')
    (hlength : rest.length ≤ s.cursor.rest.length)
    (h : At s' tokens indent outer column keyAllowed rest) (hcolumn : indent ≤ column) :
    Ready s tokens indent outer column keyAllowed rest :=
  ⟨s', happroach, hlength, h.closeBlocks (by rw [h.column]; exact closeBlocksFrom_self hcolumn)⟩

/-- **After a node** the scanner is ready for a token at the column of the collection: the blocks
    inside of the node are closed, and this one is not. -/
theorem Rests.ready (h : Rests s tokens indent outer column rest) (hcolumn : indent = column) :
    Ready s tokens indent outer column true rest := by
  obtain ⟨s', tokens', indent', outer', happroach, hlength, hat, hclose⟩ := h
  refine ⟨s', happroach, hlength, hat.closeBlocks ?_⟩
  rw [hat.column, hclose column (by omega)]
  exact closeBlocksFrom_self (by omega)

/-- **After the last node** of a block collection the scanner rests after the collection. That
    the collection ends there is decided later, by a token further left, and is told by one more
    token. -/
theorem Rests.pop {next : Int} (h : Rests s tokens indent (next :: outer) column rest)
    (hnext : next < indent) : Rests s (tokens.push .blockEnd) next outer column rest := by
  obtain ⟨s', tokens', indent', outer', happroach, hlength, hat, hclose⟩ := h
  refine ⟨s', tokens', indent', outer', happroach, hlength, hat, fun c hc => ?_⟩
  rw [hclose c (by omega), closeBlocksFrom, if_pos (by omega)]

/-! ### Between tokens

Before a token the scanner skips spaces, breaks and comments. Written text has no comments and no
tabs there; what is left is either spaces on one line or one break and the indentation after it.
-/

/-- Spaces before a token are passed, up to the token. Whether tabs may be passed too makes no
    difference, as there are none. -/
theorem skipToToken_spaces (fuel : Nat) {n : Nat} {next : List Char}
    (hrest : s.cursor.rest = spaces n ++ next) (hnext : StartsToken next) :
    s.skipToToken (fuel + 1) = { s with cursor := s.cursor.advance n } := by
  have hmark : (s.cursor.rest.head?.any isByteOrderMark) = false := by
    rw [hrest]
    cases n with
    | zero =>
      cases next with
      | nil => rfl
      | cons c next => exact (hnext c rfl).2.2
    | succ n => rfl
  -- whatever counts as blank here, the spaces are passed and nothing after them is
  have htake (p : Char → Bool) (hp : p ' ' = true)
      (hblank : ∀ c, isSpaceOrBreak c = false → p c = false) :
      s.cursor.skipWhile p = s.cursor.advance n := by
    have hspaces : ∀ a ∈ spaces n, p a = true := fun a ha => by
      rw [List.eq_of_mem_replicate ha]
      exact hp
    have hstop : next.takeWhile p = [] := by
      cases next with
      | nil => rfl
      | cons c next => rw [List.takeWhile_cons, hblank c (hnext c rfl).1]; rfl
    rw [Cursor.skipWhile, hrest, List.takeWhile_append_of_pos hspaces, hstop, List.append_nil,
      length_spaces]
  have hafter := Cursor.rest_advance_spaces hrest
  -- no comment follows
  have hsees : (s.cursor.advance n).sees '#' = false := by
    rw [Cursor.sees, hafter]
    cases next with
    | nil => rfl
    | cons c next => simpa using (hnext c rfl).2.1
  have hbreak : ((s.cursor.advance n).rest.head?.any isBreak) = false := by
    rw [hafter]
    cases next with
    | nil => rfl
    | cons c next => exact (Bool.or_eq_false_iff.mp (hnext c rfl).1).2
  have hskip := htake (fun x => x == ' ' || ((s.inFlow || ! s.keyAllowed) && x == '\t')) rfl
    fun c hc => by
    simp only [isSpaceOrBreak, isBlank, Bool.or_eq_false_iff] at hc
    rw [hc.1.1, hc.1.2, Bool.and_false]
    rfl
  unfold skipToToken
  simp only [hmark, Bool.and_false, Bool.false_eq_true, ↓reduceIte, hskip, hsees, hbreak]

/-- The end of a line and the spaces before a token are passed, after which a key may begin. The
    break is passed in one round and the spaces in the next, so the fuel is two more. -/
theorem skipToToken_line (fuel : Nat) {n : Nat} {next : List Char}
    (hrest : s.cursor.rest = '\n' :: (spaces n ++ next)) (hnext : StartsToken next)
    (hplaces : s.places = []) :
    s.skipToToken (fuel + 2)
      = { s with cursor := (s.cursor.nextLine 1).advance n, keyAllowed := true } := by
  have hmark : (s.cursor.rest.head?.any isByteOrderMark) = false := by
    rw [hrest]
    rfl
  have hskip (p : Char → Bool) (hp : p '\n' = false) : s.cursor.skipWhile p = s.cursor := by
    rw [Cursor.skipWhile, hrest, List.takeWhile_cons, hp]
    rfl
  have hskip' := hskip (fun x => x == ' ' || ((s.inFlow || ! s.keyAllowed) && x == '\t'))
    (by simp)
  have hsees : s.cursor.sees '#' = false := by
    rw [Cursor.sees, hrest]
    rfl
  have hbreak : (s.cursor.rest.head?.any isBreak) = true := by
    rw [hrest]
    rfl
  have hflow : s.inFlow = false := by
    rw [inFlow, hplaces]
    rfl
  -- one round for the break
  rw [skipToToken]
  simp only [hmark, Bool.and_false, Bool.false_eq_true, ↓reduceIte, hskip', hsees, hbreak,
    Cursor.readBreak_cons hrest (.inl rfl)]
  simp only [hflow, Bool.not_false, Bool.or_true]
  have hafter : (s.cursor.nextLine 1).rest = spaces n ++ next := by
    rw [Cursor.rest_nextLine, hrest]
    rfl
  rw [skipToToken_spaces fuel (n := n) hafter hnext]

/-- Stale places are forgotten, unless one of them has to be a key. Outside of flow collections
    there is only one place. -/
theorem dropStale_of_places (hplaces : s.places = [])
    (hplace : isStale s.cursor s.place = true → s.place.required = false) :
    s.dropStale = .ok { s with
      place := if isStale s.cursor s.place then { s.place with possible := false }
        else s.place } := by
  unfold dropStale
  rw [hplaces]
  have hnone : ((s.place :: []).any fun p => isStale s.cursor p && p.required) = false := by
    rw [List.any_cons, List.any_nil, Bool.or_false, Bool.and_eq_false_iff]
    cases hstale : isStale s.cursor s.place with
    | false => exact .inl rfl
    | true => exact .inr (hplace hstale)
  rw [hnone]
  rfl

/-- Where no place is stale, none is forgotten. -/
theorem dropStale_self (h : ∀ p ∈ s.place :: s.places, isStale s.cursor p = false) :
    s.dropStale = .ok s := by
  have hany : ((s.place :: s.places).any fun p => isStale s.cursor p && p.required) = false := by
    rw [List.any_eq_false]
    intro p hp
    rw [h p hp]
    simp
  have hplaces : (s.places.map fun p =>
      if isStale s.cursor p then { p with possible := false } else p) = s.places := by
    rw [List.map_congr_left fun p hp => by rw [h p (List.mem_cons_of_mem _ hp)]]
    exact List.map_id s.places
  have hplace : isStale s.cursor s.place = false := h _ List.mem_cons_self
  simp [dropStale, hany, hplaces, hplace]

/-- Where no key can begin, no place is stale. -/
theorem At.dropStale (h : At s tokens indent outer column keyAllowed rest) :
    s.dropStale = .ok s := by
  refine dropStale_self fun p hp => ?_
  rw [h.places, List.mem_singleton] at hp
  rw [hp, isStale, h.place]
  rfl

/-- A token that stands here is ready, if no open block is right of it. -/
theorem At.ready_here (h : At s tokens indent outer column keyAllowed rest)
    (hrest : StartsToken rest) (hcolumn : indent ≤ column) :
    Ready s tokens indent outer column keyAllowed rest := by
  have hskip : s.skipToToken (s.cursor.rest.length + 1) = s :=
    skipToToken_spaces _ (n := 0) h.rest hrest
  refine ready_of_at ?_ (Nat.le_of_eq (by rw [h.rest])) h hcolumn
  rw [approach, hskip]
  exact h.dropStale

/-- A token after a space is ready, if no open block is right of it. -/
theorem At.ready_space {next : List Char}
    (h : At s tokens indent outer column keyAllowed (' ' :: next))
    (hnext : StartsToken next) (hcolumn : indent ≤ (column + 1 : Nat)) :
    Ready s tokens indent outer (column + 1) keyAllowed next := by
  have hrest : s.cursor.rest = spaces 1 ++ next := h.rest
  have hskip := skipToToken_spaces s.cursor.rest.length hrest hnext
  have hat : At { s with cursor := s.cursor.advance 1 } tokens indent outer (column + 1) keyAllowed
      next :=
    ⟨h.tokens, h.indent, h.outer, by rw [Cursor.column_advance, h.column], h.keyAllowed,
      Cursor.rest_advance_spaces hrest, h.place, h.places⟩
  refine ready_of_at ?_ (by rw [h.rest]; simp) hat hcolumn
  rw [approach, hskip]
  exact hat.dropStale

/-- A token at the head of the next line is ready, and may be a key, if no open block is right of
    it. -/
theorem At.ready_line {n : Nat} {next : List Char}
    (h : At s tokens indent outer column keyAllowed ('\n' :: (spaces n ++ next)))
    (hnext : StartsToken next) (hcolumn : indent ≤ n) :
    Ready s tokens indent outer n true next := by
  have hfuel : s.cursor.rest.length + 1 = (n + next.length) + 2 := by
    rw [h.rest]
    simp only [List.length_cons, List.length_append, length_spaces]
  have hskip := skipToToken_line (n + next.length) h.rest hnext h.places
  have hafter : (s.cursor.nextLine 1).rest = spaces n ++ next := by
    rw [Cursor.rest_nextLine, h.rest]
    rfl
  have hat : At { s with cursor := (s.cursor.nextLine 1).advance n, keyAllowed := true } tokens
      indent outer n true next :=
    ⟨h.tokens, h.indent, h.outer, by simp, rfl, Cursor.rest_advance_spaces hafter, h.place,
      h.places⟩
  refine ready_of_at ?_ (by rw [h.rest]; simp; omega) hat hcolumn
  rw [approach, hfuel, hskip]
  exact hat.dropStale

/-! ### After a node of one token or two

Behind a scalar or an empty collection the scanner still remembers where it began, since a colon
could make a key of it. In the next line it forgets the place, which is no error as the key did not
have to be there.
-/

/-- What a scanner is right after a scalar or an empty collection: where it began a key could
    have begun too, but did not have to. -/
structure Ended (s : Scanner) (tokens : Array Token) (indent : Int) (outer : List Int) : Prop where
  tokens : s.tokens = tokens
  indent : s.indent = indent
  outer : s.outer = outer
  places : s.places = []
  place : s.place.possible = true → s.place.required = false ∧ s.place.line ≤ s.cursor.line

/-- **After the last character** of a node the scanner comes to rest in the next line. The place
    where the node began is stale there. -/
theorem Ended.rests_line (h : Ended s tokens indent outer) {n : Nat} {next : List Char}
    (hrest : s.cursor.rest = '\n' :: (spaces n ++ next)) (hnext : StartsToken next) :
    Rests s tokens indent outer n next := by
  have hfuel : s.cursor.rest.length + 1 = (n + next.length) + 2 := by
    rw [hrest]
    simp only [List.length_cons, List.length_append, length_spaces]
  have hskip := skipToToken_line (n + next.length) hrest hnext h.places
  have hafter : (s.cursor.nextLine 1).rest = spaces n ++ next := by
    rw [Cursor.rest_nextLine, hrest]
    rfl
  -- the state in the next line, before stale places are forgotten
  generalize hs' : ({ s with cursor := (s.cursor.nextLine 1).advance n,
                             keyAllowed := true } : Scanner) = s' at hskip
  have hdrop := dropStale_of_places (s := s') (by rw [← hs']; exact h.places) fun hstale => by
    rw [← hs'] at hstale ⊢
    exact (h.place (Bool.and_eq_true_iff.mp hstale).1).1
  refine ⟨_, tokens, indent, outer, (by rw [approach, hfuel, hskip]; exact hdrop), ?_, ?_,
    fun _ _ => rfl⟩
  · rw [hrest]
    simp
    omega
  · subst hs'
    refine ⟨h.tokens, h.indent, h.outer, by simp, rfl, Cursor.rest_advance_spaces hafter, ?_,
      h.places⟩
    -- the place is in a line before
    dsimp only
    split
    · rfl
    · next hfresh =>
      cases hpossible : s.place.possible with
      | false => rfl
      | true =>
        have hline := (h.place hpossible).2
        refine absurd ?_ hfresh
        simp only [isStale, hpossible, Cursor.line_advance, Cursor.line_nextLine, Bool.true_and,
          Bool.or_eq_true, decide_eq_true_eq]
        exact .inl (decide_eq_true (Nat.lt_succ_of_le hline))

/-- After a node that was read to the next token the scanner rests there. -/
theorem Ended.rests_here (h : Ended s tokens indent outer) (hnext : StartsToken s.cursor.rest)
    (hkey : s.keyAllowed = true)
    (hline : s.place.possible = true → s.place.line < s.cursor.line) :
    Rests s tokens indent outer s.cursor.column s.cursor.rest := by
  have hskip : s.skipToToken (s.cursor.rest.length + 1) = s :=
    skipToToken_spaces _ (n := 0) rfl hnext
  have hdrop := dropStale_of_places h.places fun hstale =>
    (h.place (Bool.and_eq_true_iff.mp hstale).1).1
  refine ⟨_, tokens, indent, outer, by rw [approach, hskip]; exact hdrop, Nat.le_refl _, ?_,
    fun _ _ => rfl⟩
  refine ⟨h.tokens, h.indent, h.outer, rfl, hkey, rfl, ?_, h.places⟩
  dsimp only
  split
  · rfl
  · next hfresh =>
    cases hpossible : s.place.possible with
    | false => rfl
    | true =>
      -- a place in an earlier line is stale
      refine absurd ?_ hfresh
      simp only [isStale, hpossible, Bool.true_and, Bool.or_eq_true, decide_eq_true_eq]
      exact .inl (hline hpossible)

end States

end Scanner

end SchemaEmbed.Yaml
