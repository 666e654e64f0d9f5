import SchemaEmbed.Yaml.Plain
import SchemaEmbed.Yaml.Token

namespace SchemaEmbed.Yaml

/-!
# How a string is written in YAML

* `ScalarTraits` — what a text has that keeps it from being written in some style;
* `styleOf` — the style: a text with a line feed is written literally, one that would be
  read as something else in single quotes, all else plain, as far as its traits admit;
* `singleQuoted`, `doubleQuoted`, `literal` — the written forms, which are read back as the
  text; a plain text is written as it is.
-/

/-! ### Traits -/

/-- Whether a character can be written as it is: none that is not printable, and no byte
    order mark. -/
def isPrintable (c : Char) : Bool :=
  let n := c.toNat
  n == 0x0A || (0x20 ≤ n && n ≤ 0x7E) || (0xA0 ≤ n && n ≤ 0xD7FF)
    || (0xE000 ≤ n && n ≤ 0xFFFD && n != 0xFEFF) || 0x10000 ≤ n

/-- Whether a character before or after another separates it from a word; the null
    character does too. -/
def isBoundary (c : Char) : Bool := isSpaceOrBreak c || c == '\x00'

/-- Whether a text is empty or begins with a boundary. -/
def atBoundary : List Char → Bool
  | [] => true
  | c :: _ => isBoundary c

/-- Whether a plain scalar cannot begin like this: with an indicator, or with a dash,
    question mark or colon that stands alone. -/
def startsWithIndicator : List Char → Bool
  | [] => false
  | c :: rest =>
    "#,[]\x7b\x7d&*!|>'\"%@\x60".toList.contains c
      || ((c == '?' || c == ':' || c == '-') && atBoundary rest)

/-- Whether an indicator occurs after the first character: a colon at the end of a word,
    or a number sign at its start. -/
def hasInnerIndicator : List Char → Bool
  | p :: c :: rest =>
    (c == ':' && atBoundary rest) || (c == '#' && isBoundary p) || hasInnerIndicator (c :: rest)
  | _ => false

/-- Whether somewhere a character with `p` comes right before one with `q`. -/
def hasPair (p q : Char → Bool) : List Char → Bool
  | a :: b :: rest => (p a && q b) || hasPair p q (b :: rest)
  | _ => false

/-- Whether a text begins like a line between documents. -/
def startsWithDocumentMark (s : List Char) : Bool :=
  s.take 3 == ['-', '-', '-'] || s.take 3 == ['.', '.', '.']

/-- What keeps a text from being written in some style. -/
structure ScalarTraits where
  /-- It has more than one line. -/
  multiline : Bool
  plainAllowed : Bool
  singleQuotedAllowed : Bool
  literalAllowed : Bool

/-- The traits of a text. -/
def ScalarTraits.of (s : List Char) : ScalarTraits :=
  let multiline := s.any isBreak
  let isSpace (c : Char) := c == ' '
  let ends (p : Char → Bool) := s.head?.any p || s.getLast?.any p
  let special := s.any (! isPrintable ·)
  let spaceBreak := hasPair isSpace isBreak s
  let breakSpace := hasPair isBreak isSpace s
  let quotable := ! (special || spaceBreak)
  { multiline
    plainAllowed := quotable && ! multiline && ! ends isSpace && ! startsWithDocumentMark s
      && ! startsWithIndicator s && ! hasInnerIndicator s
    singleQuotedAllowed := quotable && ! breakSpace
    literalAllowed := quotable && ! s.isEmpty && ! s.getLast?.any isSpace }

/-- Whether a plain scalar would be read back as this string. -/
def readsAsString (s : List Char) : Bool :=
  match resolvePlain s with
  | some (.string _) => ! isZeroPadded s
  | _ => false

/-- The style in which a string is written; `key` is set for a key on one line with its
    value. -/
def styleOf (key : Bool) (s : List Char) : Style :=
  let t := ScalarTraits.of s
  if key && t.multiline then .doubleQuoted
  else if s.contains '\n' then if t.literalAllowed && ! key then .literal else .doubleQuoted
  else if readsAsString s && t.plainAllowed then .plain
  else if t.singleQuotedAllowed then .singleQuoted
  else .doubleQuoted

/-! ### Written forms -/

/-- Spaces at the head of a line. -/
def spaces (n : Nat) : List Char := List.replicate n ' '

/-- The hexadecimal digit of a value below sixteen, in upper case. -/
def hexDigit (n : Nat) : Char := "0123456789ABCDEF".toList.getD n '0'

/-- The last `width` hexadecimal digits of a number. -/
def hexDigits : (width : Nat) → Nat → List Char
  | 0, _ => []
  | width + 1, n => hexDigits width (n / 16) ++ [hexDigit (n % 16)]

/-- The form of one character in double quotes. -/
def escape (c : Char) : List Char :=
  if isPrintable c && ! isBreak c && c != '"' && c != '\\' then [c]
  else
    '\\' :: (match c with
      | '\x00' => ['0']
      | '\x07' => ['a']
      | '\x08' => ['b']
      | '\t' => ['t']
      | '\n' => ['n']
      | '\x0b' => ['v']
      | '\x0c' => ['f']
      | '\r' => ['r']
      | '\x1b' => ['e']
      | '"' => ['"']
      | '\\' => ['\\']
      | '\u0085' => ['N']
      | '\u2028' => ['L']
      | '\u2029' => ['P']
      | _ =>
        if c.toNat ≤ 0xFF then 'x' :: hexDigits 2 c.toNat
        else if c.toNat ≤ 0xFFFF then 'u' :: hexDigits 4 c.toNat
        else 'U' :: hexDigits 8 c.toNat)

/-- A text in double quotes. -/
def doubleQuoted (s : List Char) : List Char := '"' :: s.flatMap escape ++ ['"']

/-- The body of a text in single quotes. A line after a break is indented; `fresh` tells
    whether a break came last. -/
def singleQuotedBody (indent : Nat) : (fresh : Bool) → List Char → List Char
  | fresh, [] => if fresh then spaces indent else []
  | fresh, c :: rest =>
    if isBreak c then c :: singleQuotedBody indent true rest
    else
      (if fresh then spaces indent else []) ++ (if c == '\'' then ['\'', '\''] else [c])
        ++ singleQuotedBody indent false rest

/-- A text in single quotes. -/
def singleQuoted (indent : Nat) (s : List Char) : List Char :=
  '\'' :: singleQuotedBody indent false s ++ ['\'']

/-- The lines of a literal scalar. Only a line with something in it is indented. -/
def literalBody (indent : Nat) : (fresh : Bool) → List Char → List Char
  | _, [] => []
  | fresh, c :: rest =>
    if isBreak c then c :: literalBody indent true rest
    else (if fresh then spaces indent else []) ++ c :: literalBody indent false rest

/-- How the breaks at the end of a literal scalar are kept: none, one or all of them. -/
def chompingMark (s : List Char) : List Char :=
  match s.reverse with
  | [] => ['-']
  | [c] => if isBreak c then ['+'] else ['-']
  | c :: d :: _ => if ! isBreak c then ['-'] else if isBreak d then ['+'] else []

/-- A text in literal style. A text that begins with a blank or a break needs its
    indentation written. -/
def literal (indent : Nat) (s : List Char) : List Char :=
  let width := if s.head?.any fun c => c == ' ' || isBreak c then ['2'] else []
  '|' :: width ++ chompingMark s ++ '\n' :: literalBody indent true s

/-- A string as it is written inside something that is indented by `indent` less two. -/
def stringChars (key : Bool) (indent : Nat) (s : List Char) : List Char :=
  match styleOf key s with
  | .doubleQuoted => doubleQuoted s
  | .singleQuoted => singleQuoted indent s
  | .literal => literal indent s
  | _ => s

end SchemaEmbed.Yaml
