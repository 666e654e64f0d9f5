import SchemaEmbed.Yaml.Token.Scalar
import SchemaEmbed.Yaml.Token.Tag

namespace SchemaEmbed.Yaml

/-!
# The token stream of a text

Whether a word is the key of a mapping shows only at the colon after it. So the place
where a key could begin is remembered, and at the colon the key token, and in block
context the start of the mapping, are inserted before the tokens that came since:

* `KeyPlace` — a remembered place, one for each open flow collection and one for the
  block context; a key must be on one line and no longer than 1024 characters;
* `Scanner` — tokens so far, the columns of the open block collections, and the places
  where keys could begin;
* `tokenize` — all tokens of a text.
-/

/-- A place where a key could begin. -/
structure KeyPlace where
  possible : Bool
  /-- Whether something other than a key would be wrong here. -/
  required : Bool
  /-- How many tokens come before. -/
  token : Nat
  index : Nat
  line : Nat
  column : Nat

/-- No key can begin. -/
def KeyPlace.none : KeyPlace := ⟨false, false, 0, 0, 0, 0⟩

/-- A text that is being cut into tokens. -/
structure Scanner where
  cursor : Cursor
  tokens : Array Token
  /-- The column of the innermost block collection, `-1` outside of all. -/
  indent : Int
  /-- The columns of the other open block collections, innermost first. -/
  outer : List Int
  /-- Where a key could begin in the innermost context. -/
  place : KeyPlace
  /-- Where a key could begin in the contexts around it, innermost first. -/
  places : List KeyPlace
  /-- Whether a key may begin at the next token. -/
  keyAllowed : Bool

namespace Scanner

/-- The scanner before the first token. -/
def start (text : List Char) : Scanner :=
  ⟨.start text, #[], -1, [], .none, [], true⟩

/-- Whether a flow collection is open. -/
def inFlow (s : Scanner) : Bool := ! s.places.isEmpty

/-- An error found here. -/
def fail {α : Type} (s : Scanner) (reason : String) : Except SyntaxError α :=
  s.cursor.fail reason

/-- Appends a token. -/
def push (s : Scanner) (t : Token) : Scanner := { s with tokens := s.tokens.push t }

/-- Inserts a token before the tokens from `i` on. -/
def insert (s : Scanner) (i : Nat) (t : Token) : Scanner :=
  { s with tokens := s.tokens.insertIdxIfInBounds i t }

/-- Passes `n` characters of the line. -/
def advance (s : Scanner) (n : Nat) : Scanner := { s with cursor := s.cursor.advance n }

/-! ### Places of keys -/

/-- Forgets the place of a key in the innermost context. -/
def dropPlace (s : Scanner) : Except SyntaxError Scanner :=
  if s.place.possible && s.place.required then s.fail "could not find expected ':'"
  else .ok { s with place := { s.place with possible := false } }

/-- Remembers that a key could begin here. It has to, where a block collection's own
    column is reached. -/
def savePlace (s : Scanner) : Except SyntaxError Scanner :=
  if s.keyAllowed then do
    let c := s.cursor
    let s ← s.dropPlace
    return { s with place :=
      ⟨true, ! s.inFlow && s.indent == (c.column : Int), s.tokens.size, c.index, c.line,
        c.column⟩ }
  else .ok s

/-- Whether a key that began at a place can no longer end here. -/
def isStale (c : Cursor) (p : KeyPlace) : Bool :=
  p.possible && (p.line < c.line || p.index + 1024 < c.index)

/-- Forgets the places whose keys would be too long or cross a line. -/
def dropStale (s : Scanner) : Except SyntaxError Scanner :=
  if (s.place :: s.places).any fun p => isStale s.cursor p && p.required then
    s.fail "could not find expected ':'"
  else
    let fresh (p : KeyPlace) := if isStale s.cursor p then { p with possible := false } else p
    .ok { s with place := fresh s.place, places := s.places.map fresh }

/-! ### Indentation -/

/-- Opens a block collection at `column`, unless one is open there; its start comes
    before the tokens from `at_` on. -/
def openBlock (s : Scanner) (column : Nat) (at_ : Nat) (t : Token) : Scanner :=
  if ! s.inFlow && s.indent < (column : Int) then
    { s.insert at_ t with indent := column, outer := s.indent :: s.outer }
  else s

/-- Closes the block collections whose column is right of `column`. -/
def closeBlocksFrom (column : Int) :
    (indent : Int) → (outer : List Int) → Array Token → Int × List Int × Array Token
  | indent, [], tokens => (indent, [], tokens)
  | indent, next :: outer, tokens =>
    if column < indent then closeBlocksFrom column next outer (tokens.push .blockEnd)
    else (indent, next :: outer, tokens)

/-- Closes the block collections whose column is right of `column`, outside of flow
    collections. -/
def closeBlocks (s : Scanner) (column : Int) : Scanner :=
  if s.inFlow then s
  else
    let (indent, outer, tokens) := closeBlocksFrom column s.indent s.outer s.tokens
    { s with indent, outer, tokens }

/-! ### Between tokens -/

/-- Passes blanks, comments and breaks. A tab does not count as a blank where a key may
    begin in block context. A byte order mark may stand at the beginning of a line, where
    it takes a column. -/
def skipToToken : (fuel : Nat) → Scanner → Scanner
  | 0, s => s
  | fuel + 1, s =>
    let c := s.cursor
    let c := if c.column == 0 && c.rest.head?.any isByteOrderMark then c.advance 1 else c
    let c := c.skipWhile fun x => x == ' ' || ((s.inFlow || ! s.keyAllowed) && x == '\t')
    let c := if c.sees '#' then c.skipWhile (! isBreak ·) else c
    if c.rest.head?.any isBreak then
      skipToToken fuel
        { s with cursor := c.readBreak.2, keyAllowed := s.keyAllowed || ! s.inFlow }
    else { s with cursor := c }

/-! ### Tokens -/

/-- The end of the text closes all blocks. -/
def streamEnd (s : Scanner) : Except SyntaxError Scanner := do
  let s ← (s.closeBlocks (-1)).dropPlace
  return { s with keyAllowed := false }.push .streamEnd

/-- Something that stands between documents closes all blocks. -/
def betweenDocuments (s : Scanner) : Except SyntaxError Scanner := do
  let s ← (s.closeBlocks (-1)).dropPlace
  return { s with keyAllowed := false }

/-- A directive. -/
def directive (s : Scanner) : Except SyntaxError Scanner := do
  let s ← s.betweenDocuments
  let (t, cursor) ← scanDirective s.cursor
  return { s with cursor }.push t

/-- An indicator of the start or the end of a document. -/
def documentIndicator (s : Scanner) (t : Token) : Except SyntaxError Scanner := do
  let s ← s.betweenDocuments
  return (s.push t).advance 3

/-- The start of a flow collection, which may be a key itself. -/
def flowStart (s : Scanner) (t : Token) : Except SyntaxError Scanner := do
  let s ← s.savePlace
  return { s with place := .none, places := s.place :: s.places, keyAllowed := true }.push t
    |>.advance 1

/-- The end of a flow collection. -/
def flowEnd (s : Scanner) (t : Token) : Except SyntaxError Scanner := do
  let s ← s.dropPlace
  let s := match s.places with
    | [] => s
    | place :: places => { s with place, places }
  return ({ s with keyAllowed := false }.push t).advance 1

/-- A comma in a flow collection. -/
def flowEntry (s : Scanner) : Except SyntaxError Scanner := do
  let s ← s.dropPlace
  return ({ s with keyAllowed := true }.push .flowEntry).advance 1

/-- A dash before an item. -/
def blockEntry (s : Scanner) : Except SyntaxError Scanner := do
  if ! s.inFlow && ! s.keyAllowed then
    s.fail "block sequence entries are not allowed in this context"
  else
    let s := s.openBlock s.cursor.column s.tokens.size .blockSequenceStart
    let s ← s.dropPlace
    return ({ s with keyAllowed := true }.push .blockEntry).advance 1

/-- A question mark before a key. -/
def keyIndicator (s : Scanner) : Except SyntaxError Scanner := do
  if ! s.inFlow && ! s.keyAllowed then
    s.fail "mapping keys are not allowed in this context"
  else
    let s := s.openBlock s.cursor.column s.tokens.size .blockMappingStart
    let s ← s.dropPlace
    return ({ s with keyAllowed := ! s.inFlow }.push .key).advance 1

/-- A colon before a value. -/
def valueIndicator (s : Scanner) : Except SyntaxError Scanner :=
  if s.place.possible then
    let place := s.place
    let s := s.insert place.token .key
    let s := s.openBlock place.column place.token .blockMappingStart
    let s := { s with place := { place with possible := false }, keyAllowed := false }
    .ok ((s.push .value).advance 1)
  else if ! s.inFlow && ! s.keyAllowed then
    s.fail "mapping values are not allowed in this context"
  else
    let s := s.openBlock s.cursor.column s.tokens.size .blockMappingStart
    .ok (({ s with keyAllowed := ! s.inFlow }.push .value).advance 1)

/-- A name after an indicator; it may be a key. -/
def named (s : Scanner) (t : String → Token) : Except SyntaxError Scanner := do
  let s ← s.savePlace
  let (name, cursor) ← scanName s.cursor
  return { s with cursor, keyAllowed := false }.push (t name)

/-- A tag; it may belong to a key. -/
def tag (s : Scanner) : Except SyntaxError Scanner := do
  let s ← s.savePlace
  let (t, cursor) ← scanTag s.inFlow s.cursor
  return { s with cursor, keyAllowed := false }.push t

/-- A block scalar, after which a key may begin. -/
def blockScalar (s : Scanner) (literal : Bool) : Except SyntaxError Scanner := do
  let s ← s.dropPlace
  let (text, cursor) ← scanBlock literal s.indent s.cursor
  let style := if literal then Style.literal else .folded
  return { s with cursor, keyAllowed := true }.push (.scalar (String.ofList text) style)

/-- A quoted scalar; it may be a key. -/
def quotedScalar (s : Scanner) (single : Bool) : Except SyntaxError Scanner := do
  let s ← s.savePlace
  let (text, cursor) ← scanQuoted single s.cursor
  let style := if single then Style.singleQuoted else .doubleQuoted
  return { s with cursor, keyAllowed := false }.push (.scalar (String.ofList text) style)

/-- A plain scalar; it may be a key, and after it one may begin on another line. -/
def plainScalar (s : Scanner) : Except SyntaxError Scanner := do
  let s ← s.savePlace
  let (text, crossed, cursor) ← scanPlain s.inFlow (s.indent + 1).toNat s.cursor
  return { s with cursor, keyAllowed := crossed }.push (.scalar (String.ofList text) .plain)

/-- Whether a plain scalar may begin with this text: not with an indicator, but with a
    dash that no blank follows, and in block context with a question mark or colon that
    begins a word. -/
def startsPlain (flow : Bool) : List Char → Bool
  | [] => false
  | c :: rest =>
    ! (isSpaceOrBreak c || "-?:,[]\x7b\x7d#&*!|>'\"%@\x60".toList.contains c)
      || (c == '-' && ! rest.head?.any isBlank)
      || (! flow && (c == '?' || c == ':') && ! endsWord rest)

/-- Reads the token that begins here. -/
def token (s : Scanner) : Except SyntaxError Scanner :=
  match s.cursor.rest with
  | [] => s.streamEnd
  | c :: rest =>
    if s.cursor.column == 0 && c == '%' then s.directive
    else if s.cursor.atDocumentIndicator then
      s.documentIndicator (if c == '-' then .documentStart else .documentEnd)
    else if c == '[' then s.flowStart .flowSequenceStart
    else if c == '{' then s.flowStart .flowMappingStart
    else if c == ']' then s.flowEnd .flowSequenceEnd
    else if c == '}' then s.flowEnd .flowMappingEnd
    else if c == ',' then s.flowEntry
    else if c == '-' && endsWord rest then s.blockEntry
    else if c == '?' && (s.inFlow || endsWord rest) then s.keyIndicator
    else if c == ':' && (s.inFlow || endsWord rest) then s.valueIndicator
    else if c == '*' then s.named .alias
    else if c == '&' then s.named .anchor
    else if c == '!' then s.tag
    else if c == '|' && ! s.inFlow then s.blockScalar true
    else if c == '>' && ! s.inFlow then s.blockScalar false
    else if c == '\'' then s.quotedScalar true
    else if c == '"' then s.quotedScalar false
    else if startsPlain s.inFlow (c :: rest) then s.plainScalar
    else s.fail "found character that cannot start any token"

/-- Goes to the next token, where the keys of some places can no longer end. -/
def approach (s : Scanner) : Except SyntaxError Scanner :=
  (s.skipToToken (s.cursor.rest.length + 1)).dropStale

/-- Reads one token. -/
def next (s : Scanner) : Except SyntaxError Scanner := do
  let s ← s.approach
  (s.closeBlocks s.cursor.column).token

/-- Reads tokens to the end of the text; `fuel` bounds their number. -/
def run : (fuel : Nat) → Scanner → Except SyntaxError (List Token)
  | 0, s => s.fail "found unexpected end of stream"
  | fuel + 1, s => do
    let s ← s.next
    if s.tokens.back? == some .streamEnd then return s.tokens.toList else run fuel s

end Scanner

/-- All tokens of a text, the last of which is its end. -/
def tokenize (text : List Char) : Except SyntaxError (List Token) :=
  if text.all isAllowed then (Scanner.start text).run (text.length + 1)
  else (Cursor.start text).fail "control characters are not allowed"

end SchemaEmbed.Yaml
