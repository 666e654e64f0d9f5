import SchemaEmbed.Yaml.Cursor
import SchemaEmbed.Yaml.Token

namespace SchemaEmbed.Yaml

/-!
# Scanning anchors, tags and directives

* `scanName` — the name of an anchor or an alias;
* `scanUri` — characters of a tag, in which octets can be escaped as `%41`;
* `TagName.ofPieces` — what they say: the octets up to the first escaped null character,
  which are a text or not;
* `scanTag` — `!suffix`, `!handle!suffix` or `!<uri>`; the handle is empty for the last;
* `scanDirective` — `%YAML` and `%TAG` lines.
-/

/-- What may stand directly after the name of an anchor. -/
def endsName : List Char → Bool
  | [] => true
  | c :: _ =>
    isSpaceOrBreak c || c == '?' || c == ':' || c == ',' || c == ']' || c == '}' || c == '%'
      || c == '@' || c == '\x60'

/-- Reads a name after its indicator. -/
def scanName (c : Cursor) : Except SyntaxError (String × Cursor) :=
  let c := c.advance 1
  let name := c.rest.takeWhile isWord
  let after := c.advance name.length
  if name.isEmpty || ! endsName after.rest then
    after.fail "did not find expected alphabetic or numeric character"
  else .ok (String.ofList name, after)

/-! ### Tags -/

/-- Whether a character may stand in a tag; `verbatim` admits the indicators of flow
    collections too. -/
def isUriChar (verbatim : Bool) (c : Char) : Bool :=
  isWord c || ";/?:@&=+$.%!~*'()".toList.contains c
    || (verbatim && (c == ',' || c == '[' || c == ']'))

/-- Pieces of a tag: characters, and octets that stand for a character between them. -/
inductive UriPiece where
  | char (c : Char)
  /-- Octets of one sequence that is right in its leading and trailing bits. -/
  | octets (bytes : List Nat)
  deriving Repr

/-- The length of a sequence with this leading octet. -/
def sequenceWidth? (octet : Nat) : Option Nat :=
  if octet < 0x80 then some 1
  else if octet / 0x20 = 0x6 then some 2
  else if octet / 0x10 = 0xE then some 3
  else if octet / 0x08 = 0x1E then some 4
  else none

/-- One octet written as `%41`. -/
def escapedOctet? : List Char → Option Nat
  | '%' :: a :: b :: _ => hexNumber? [a, b]
  | _ => none

/-- Reads the trailing octets of a sequence. -/
def trailingOctets : (count : Nat) → Cursor → Except SyntaxError (List Nat × Cursor)
  | 0, c => .ok ([], c)
  | count + 1, c =>
    match escapedOctet? c.rest with
    | none => c.fail "did not find URI escaped octet"
    | some octet =>
      if octet / 0x40 ≠ 0x2 then c.fail "found an incorrect trailing UTF-8 octet"
      else do
        let (octets, c) ← trailingOctets count (c.advance 3)
        return (octet :: octets, c)

/-- Reads the octets of one escaped character. -/
def escapedCharacter (c : Cursor) : Except SyntaxError (UriPiece × Cursor) :=
  match escapedOctet? c.rest with
  | none => c.fail "did not find URI escaped octet"
  | some octet =>
    match sequenceWidth? octet with
    | none => c.fail "found an incorrect leading UTF-8 octet"
    | some width => do
      let (octets, c) ← trailingOctets (width - 1) (c.advance 3)
      return (.octets (octet :: octets), c)

/-- Reads the characters of a tag. -/
def uriPieces (verbatim : Bool) :
    (fuel : Nat) → Cursor → Except SyntaxError (List UriPiece × Cursor)
  | 0, c => .ok ([], c)
  | fuel + 1, c =>
    match c.rest with
    | [] => .ok ([], c)
    | x :: _ =>
      if ¬ isUriChar verbatim x then .ok ([], c)
      else do
        let (piece, c) ← if x = '%' then escapedCharacter c
          else pure (.char x, c.advance 1)
        let (pieces, c) ← uriPieces verbatim fuel c
        return (piece :: pieces, c)

/-- The text of a piece, if its octets are the shortest form of a code point. -/
def UriPiece.text? : UriPiece → Option String
  | .char c => some (String.ofList [c])
  | .octets bytes => String.fromUTF8? ⟨(bytes.map UInt8.ofNat).toArray⟩

/-- Whether a piece is the null character. -/
def UriPiece.isNull : UriPiece → Bool
  | .octets [0] => true
  | _ => false

/-- Whether a piece is an exclamation mark, escaped or not. -/
def UriPiece.isMark : UriPiece → Bool
  | .char c => c == '!'
  | .octets bytes => bytes == [0x21]

/-- What pieces say. The first null character ends them, and what stands after it need not
    be a text. -/
def TagName.ofPieces (pieces : List UriPiece) : TagName :=
  let pieces := pieces.takeWhile fun piece => ! piece.isNull
  match pieces.mapM UriPiece.text? with
  | some texts => .text (String.join texts)
  | none => .unreadable (pieces.head?.any UriPiece.isMark)

/-- Reads a part of a tag after `head`. The part must not be empty. -/
def scanUri (verbatim : Bool) (head : List Char) (c : Cursor) :
    Except SyntaxError (TagName × Cursor) := do
  let (pieces, after) ← uriPieces verbatim (c.rest.length + 1) c
  if head.isEmpty && pieces.isEmpty then c.fail "did not find expected tag URI"
  else return (.ofPieces ((head.drop 1).map .char ++ pieces), after)

/-- Reads `!`, `!word` or `!word!`. -/
def scanHandle (c : Cursor) : Except SyntaxError (List Char × Cursor) :=
  if ¬ c.sees '!' then c.fail "did not find expected '!'"
  else
    let word := (c.rest.drop 1).takeWhile isWord
    let c := c.advance (word.length + 1)
    if c.sees '!' then .ok ('!' :: word ++ ['!'], c.advance 1)
    else .ok ('!' :: word, c)

/-- Whether a handle stands between two exclamation marks. -/
def isNamedHandle (handle : List Char) : Bool :=
  handle.length ≥ 2 && handle.getLast? == some '!'

/-- Reads a tag. -/
def scanTag (flow : Bool) (c : Cursor) : Except SyntaxError (Token × Cursor) := do
  let (token, c) ←
    if (c.rest.drop 1).head? == some '<' then do
      let (suffix, c) ← scanUri true [] (c.advance 2)
      if c.sees '>' then pure (Token.tag "" suffix, c.advance 1)
      else c.fail "did not find the expected '>'"
    else do
      let (handle, c) ← scanHandle c
      if isNamedHandle handle then
        let (suffix, c) ← scanUri false [] c
        pure (.tag (String.ofList handle) suffix, c)
      else
        let (suffix, c) ← scanUri false handle c
        -- A lone exclamation mark is a tag of its own.
        if suffix = .text "" then pure (.tag "" (.text "!"), c) else pure (.tag "!" suffix, c)
  if endsWord c.rest || (flow && c.sees ',') then return (token, c)
  else c.fail "did not find expected whitespace or line break"

/-! ### Directives -/

/-- Reads a part of a version number. -/
def versionNumber (c : Cursor) : Except SyntaxError (Nat × Cursor) :=
  let digits := c.rest.takeWhile isDigit
  if digits.isEmpty then c.fail "did not find expected version number"
  else if digits.length > 9 then c.fail "found extremely long version number"
  else
    .ok (digits.foldl (fun n d => n * 10 + (d.toNat - '0'.toNat)) 0, c.advance digits.length)

/-- Reads the version after `%YAML`. -/
def versionValue (c : Cursor) : Except SyntaxError (Token × Cursor) := do
  let (major, c) ← versionNumber (c.skipWhile isBlank)
  if c.sees '.' then
    let (minor, c) ← versionNumber (c.advance 1)
    return (.versionDirective major minor, c)
  else c.fail "did not find expected digit or '.' character"

/-- Reads the handle and what it stands for after `%TAG`. -/
def tagValue (c : Cursor) : Except SyntaxError (Token × Cursor) := do
  let (handle, c) ← scanHandle (c.skipWhile isBlank)
  if ¬ (handle = ['!'] ∨ isNamedHandle handle) then c.fail "did not find expected '!'"
  else if ¬ c.rest.head?.any isBlank then c.fail "did not find expected whitespace"
  else
    let (target, c) ← scanUri true [] (c.skipWhile isBlank)
    if endsWord c.rest then return (.tagDirective (String.ofList handle) target, c)
    else c.fail "did not find expected whitespace or line break"

/-- Reads a directive and the rest of its line. -/
def scanDirective (c : Cursor) : Except SyntaxError (Token × Cursor) := do
  let name := (c.rest.drop 1).takeWhile isWord
  let c := c.advance (name.length + 1)
  if name.isEmpty then c.fail "could not find expected directive name"
  else if ¬ endsWord c.rest then c.fail "found unexpected non-alphabetical character"
  else
    let (token, c) ←
      if name = ['Y', 'A', 'M', 'L'] then versionValue c
      else if name = ['T', 'A', 'G'] then tagValue c
      else c.fail "found unknown directive name"
    let c := c.skipComment
    if endsLine c.rest then return (token, c.readBreak.2)
    else c.fail "did not find expected comment or line break"

end SchemaEmbed.Yaml
