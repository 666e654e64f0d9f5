namespace SchemaEmbed.Toml

/-!
# Characters of TOML

* `isBlank` — blanks within a line;
* `isControl` — the characters that stand for themselves nowhere;
* `isBare` — the characters of a key without quotes;
* `Fault` — why a text is not TOML.
-/

/-- Whether a character is a blank within a line. -/
def isBlank (c : Char) : Bool := c == ' ' || c == '\t'

/-- Whether a character is a control character other than a tab. -/
def isControl (c : Char) : Bool := (c.toNat < 0x20 && c != '\t') || c.toNat == 0x7F

/-- Whether a character is a decimal digit. -/
def isDigit (c : Char) : Bool := '0' ≤ c && c ≤ '9'

/-- Whether a character may stand in a key without quotes. -/
def isBare (c : Char) : Bool :=
  isDigit c || ('A' ≤ c && c ≤ 'Z') || ('a' ≤ c && c ≤ 'z') || c == '_' || c == '-'

/-- The value of a hexadecimal digit of either case. -/
def hexValue? (c : Char) : Option Nat :=
  if '0' ≤ c ∧ c ≤ '9' then some (c.toNat - '0'.toNat)
  else if 'a' ≤ c ∧ c ≤ 'f' then some (c.toNat - 'a'.toNat + 10)
  else if 'A' ≤ c ∧ c ≤ 'F' then some (c.toNat - 'A'.toNat + 10)
  else none

/-- The number that digits of a base write; there must be a digit. -/
def numberInBase (base : Nat) (s : List Char) : Option Nat :=
  if s.isEmpty then none
  else s.foldlM (fun n c => (hexValue? c).bind fun d =>
    if d < base then some (n * base + d) else none) 0

/-- The character with this code point, if there is one. -/
def charOfCode? (n : Nat) : Option Char :=
  if h : n.isValidChar then some (Char.ofNatAux n h) else none

/-- Why a text is not TOML. -/
inductive Fault where
  | unexpected
  | unclosedString
  | invalidEscape
  | invalidCharacter
  | invalidValue
  | duplicateKey
  | notTable
  | tooDeep
  | invalidDateTime
  deriving DecidableEq, Repr

/-- The wording of a fault. -/
def Fault.message : Fault → String
  | .unexpected => "unexpected token"
  | .unclosedString => "unclosed string"
  | .invalidEscape => "invalid escape sequence"
  | .invalidCharacter => "invalid character"
  | .invalidValue => "invalid value"
  | .duplicateKey => "duplicate key"
  | .notTable => "cannot extend a value that is not a table"
  | .tooDeep => "recursion limit exceeded"
  | .invalidDateTime => "invalid date-time"

end SchemaEmbed.Toml
