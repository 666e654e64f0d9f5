namespace SchemaEmbed.Text

/-!
# White space

* `isWhiteSpace` — the characters with the Unicode property `White_Space`;
* `trimStart` / `trimEnd` / `trim` — a text without white space at its ends.
-/

/-- The code points with the property `White_Space`, as inclusive ranges. -/
def whiteSpaceRanges : List (Nat × Nat) :=
  [(0x09, 0x0D), (0x20, 0x20), (0x85, 0x85), (0xA0, 0xA0), (0x1680, 0x1680),
    (0x2000, 0x200A), (0x2028, 0x2029), (0x202F, 0x202F), (0x205F, 0x205F),
    (0x3000, 0x3000)]

/-- Whether a character is white space. -/
def isWhiteSpace (c : Char) : Bool :=
  whiteSpaceRanges.any fun r => r.1 ≤ c.toNat && c.toNat ≤ r.2

/-- A text without white space at its start. -/
def trimStart (s : List Char) : List Char := s.dropWhile isWhiteSpace

/-- A text without white space at its end. -/
def trimEnd (s : List Char) : List Char := (trimStart s.reverse).reverse

/-- A text without white space at its ends. -/
def trim (s : List Char) : List Char := trimEnd (trimStart s)

end SchemaEmbed.Text
