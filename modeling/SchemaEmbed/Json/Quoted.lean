import SchemaEmbed.Json.Fault

namespace SchemaEmbed.Json

/-!
# JSON strings

* `encode` — the quoted form of a string: only the quote, the backslash and characters
  below U+0020 are escaped;
* `decode` — reads what stands between the quotes, up to and with the closing one.
-/

/-! ### Writing -/

/-- The digit of a value below sixteen, in lower case. -/
def hexDigit (n : Nat) : Char := "0123456789abcdef".toList.getD n '0'

/-- The form of one character inside quotes. -/
def escape (c : Char) : List Char :=
  if c = '"' then ['\\', '"']
  else if c = '\\' then ['\\', '\\']
  else if c = '\x08' then ['\\', 'b']
  else if c = '\t' then ['\\', 't']
  else if c = '\n' then ['\\', 'n']
  else if c = '\x0c' then ['\\', 'f']
  else if c = '\r' then ['\\', 'r']
  else if c.toNat < 0x20 then
    ['\\', 'u', '0', '0', hexDigit (c.toNat / 16), hexDigit (c.toNat % 16)]
  else [c]

/-- A string in quotes. -/
def encode (s : List Char) : List Char := '"' :: s.flatMap escape ++ ['"']

/-! ### Reading -/

/-- The value of a hexadecimal digit of either case. -/
def hexValue? (c : Char) : Option Nat :=
  if '0' ≤ c ∧ c ≤ '9' then some (c.toNat - '0'.toNat)
  else if 'a' ≤ c ∧ c ≤ 'f' then some (c.toNat - 'a'.toNat + 10)
  else if 'A' ≤ c ∧ c ≤ 'F' then some (c.toNat - 'A'.toNat + 10)
  else none

/-- The value of four hexadecimal digits. -/
def hexValue4? (a b c d : Char) : Option Nat := do
  let a ← hexValue? a
  let b ← hexValue? b
  let c ← hexValue? c
  let d ← hexValue? d
  return ((a * 16 + b) * 16 + c) * 16 + d

/-- The character of an escape by a single letter. -/
def unescape? (c : Char) : Option Char :=
  if c = '"' then some '"'
  else if c = '\\' then some '\\'
  else if c = '/' then some '/'
  else if c = 'b' then some '\x08'
  else if c = 'f' then some '\x0c'
  else if c = 'n' then some '\n'
  else if c = 'r' then some '\r'
  else if c = 't' then some '\t'
  else none

/-- The number of bytes of a text. -/
def byteCount (s : List Char) : Nat := s.foldl (fun n c => n + c.utf8Size) 0

/-- What is wrong with an escape whose four bytes at the head of `s` are no number. -/
def badHex (s : List Char) : Fault :=
  if byteCount s < 4 then .here .endInString [] else ⟨.invalidEscape, s, 4⟩

/-- Whether a number is the first half of a surrogate pair. -/
def isHighSurrogate (n : Nat) : Bool := 0xD800 ≤ n && n ≤ 0xDBFF

/-- Whether a number is the second half of a surrogate pair. -/
def isLowSurrogate (n : Nat) : Bool := 0xDC00 ≤ n && n ≤ 0xDFFF

/-- The character of a surrogate pair. -/
def joinSurrogates (high low : Nat) : Char :=
  .ofNat ((high - 0xD800) * 0x400 + (low - 0xDC00) + 0x10000)

/-- Reads a string up to and with its closing quote; `read` is what has been read of it,
    last character first. -/
def decodeFrom (read : List Char) : List Char → Except Fault (List Char × List Char)
  | [] => .error (.peek .endInString [])
  | '"' :: rest => .ok (read.reverse, rest)
  | '\\' :: 'u' :: a :: b :: c :: d :: rest =>
    match hexValue4? a b c d with
    | none => .error (badHex (a :: b :: c :: d :: rest))
    | some n =>
      if isLowSurrogate n then .error (.here .loneSurrogate rest)
      else if isHighSurrogate n then
        match rest with
        | '\\' :: 'u' :: a :: b :: c :: d :: rest =>
          match hexValue4? a b c d with
          | none => .error (badHex (a :: b :: c :: d :: rest))
          | some m =>
            if isLowSurrogate m then decodeFrom (joinSurrogates n m :: read) rest
            else .error (.here .loneSurrogate rest)
        | '\\' :: 'u' :: rest => .error (badHex rest)
        | ['\\'] => .error (.peek .endInString [])
        | '\\' :: rest => .error (.peek .unexpectedEndOfHexEscape rest)
        | [] => .error (.peek .endInString [])
        | rest => .error (.peek .unexpectedEndOfHexEscape rest)
      else decodeFrom (Char.ofNat n :: read) rest
  | '\\' :: 'u' :: rest => .error (badHex rest)
  | '\\' :: c :: rest =>
    match unescape? c with
    | some x => decodeFrom (x :: read) rest
    | none => .error (.peek .invalidEscape (c :: rest))
  | ['\\'] => .error (.peek .endInString [])
  | c :: rest =>
    if c.toNat < 0x20 then .error (.peek .controlCharacter (c :: rest))
    else decodeFrom (c :: read) rest

/-- Reads a string whose opening quote has been read. -/
def decode (s : List Char) : Except Fault (String × List Char) :=
  match decodeFrom [] s with
  | .ok (chars, rest) => .ok (String.ofList chars, rest)
  | .error f => .error f

end SchemaEmbed.Json
