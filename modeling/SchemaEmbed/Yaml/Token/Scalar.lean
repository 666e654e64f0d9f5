import SchemaEmbed.Yaml.Cursor
import SchemaEmbed.Yaml.Token

namespace SchemaEmbed.Yaml

/-!
# Scanning scalars

* `Gap` — blanks and breaks between two words of a flow scalar; `Gap.folded` is what
  they contribute: a single break becomes a space, of several the first is dropped;
* `scanPlain` — a plain scalar, which ends where a line is indented too little;
* `scanQuoted` — a scalar in single or double quotes;
* `scanBlock` — a literal or folded scalar with its chomping and indentation.

A loop over the lines of a scalar is bounded by the length of the text, of which every
round reads some.
-/

/-! ### Gaps between words -/

/-- Blanks and breaks between two words. -/
structure Gap where
  /-- Blanks before the first break. -/
  blanks : List Char
  /-- The first break, if there is one; an escaped break contributes nothing. -/
  first : Option (List Char)
  /-- The other breaks. -/
  others : List Char
  deriving Repr

namespace Gap

/-- No gap. -/
def none : Gap := ⟨[], .none, []⟩

/-- The gap that begins with an escaped break. -/
def afterEscape : Gap := ⟨[], some [], []⟩

/-- Whether the gap reaches another line. -/
def breaksLine (g : Gap) : Bool := g.first.isSome

/-- What the gap contributes to the scalar. -/
def folded (g : Gap) : List Char :=
  match g.first with
  | .none => g.blanks
  | some ['\n'] => if g.others.isEmpty then [' '] else g.others
  | some first => first ++ g.others

/-- Adds a line break. -/
def addBreak (g : Gap) (text : List Char) : Gap :=
  match g.first with
  | .none => ⟨[], some text, g.others⟩
  | some _ => { g with others := g.others ++ text }

/-- Adds a blank, which counts only before the first break. -/
def addBlank (g : Gap) (c : Char) : Gap :=
  if g.breaksLine then g else { g with blanks := g.blanks ++ [c] }

end Gap

/-- Reads a gap. A tab that stands for indentation below `indent` is an error. -/
def scanGap (indent : Nat) : (fuel : Nat) → Gap → Cursor → Except SyntaxError (Gap × Cursor)
  | 0, g, c => .ok (g, c)
  | fuel + 1, g, c =>
    match c.rest with
    | [] => .ok (g, c)
    | x :: _ =>
      if isBlank x then
        if g.breaksLine && x == '\t' && c.column < indent then
          c.fail "found a tab character that violates indentation"
        else scanGap indent fuel (g.addBlank x) (c.advance 1)
      else if isBreak x then
        let (text, c) := c.readBreak
        scanGap indent fuel (g.addBreak text) c
      else .ok (g, c)

/-! ### Plain scalars -/

/-- Whether a character ends a plain scalar in a flow collection. -/
def isFlowIndicator (c : Char) : Bool :=
  c == ',' || c == '[' || c == ']' || c == '{' || c == '}'

/-- How many characters at the head belong to the same word of a plain scalar. A colon
    right before another indicator of a flow collection is an error. -/
def plainWord (flow : Bool) : List Char → Option Nat
  | [] => some 0
  | c :: rest =>
    if isSpaceOrBreak c then some 0
    else if flow && c == ':' && (rest.head?.any fun d => isFlowIndicator d || d == '?') then none
    else if (c == ':' && endsWord rest) || (flow && isFlowIndicator c) then some 0
    else (plainWord flow rest).map (· + 1)

/-- Reads words and gaps. The result tells whether the scalar ended in another line than
    its last word. -/
def scanPlainFrom (flow : Bool) (indent : Nat) :
    (fuel : Nat) → (text : List Char) → Gap → Cursor →
      Except SyntaxError (List Char × Bool × Cursor)
  | 0, text, g, c => .ok (text, g.breaksLine, c)
  | fuel + 1, text, g, c =>
    if c.atDocumentIndicator || c.sees '#' then .ok (text, g.breaksLine, c)
    else
      match plainWord flow c.rest with
      | none => c.fail "found unexpected ':'"
      | some 0 => .ok (text, g.breaksLine, c)
      | some n => do
        let text := text ++ g.folded ++ c.rest.take n
        let c := c.advance n
        let (g, c) ← scanGap indent (c.rest.length + 1) Gap.none c
        if ¬ flow ∧ c.column < indent then return (text, g.breaksLine, c)
        else scanPlainFrom flow indent fuel text g c

/-- Reads a plain scalar whose lines must be indented by `indent` outside of flow
    collections. -/
def scanPlain (flow : Bool) (indent : Nat) (c : Cursor) :
    Except SyntaxError (List Char × Bool × Cursor) :=
  scanPlainFrom flow indent (c.rest.length + 1) [] Gap.none c

/-! ### Quoted scalars -/

/-- Why a word of a quoted scalar ended. -/
inductive WordEnd where
  /-- At a blank, a break or the end of the text. -/
  | gap
  /-- At the closing quote. -/
  | quote
  /-- After a backslash that escapes a line break. -/
  | escapedBreak
  deriving DecidableEq, Repr

/-- The character of an escape by a single letter. -/
def unescape? (c : Char) : Option Char :=
  match c with
  | '0' => some '\x00'
  | 'a' => some '\x07'
  | 'b' => some '\x08'
  | 't' => some '\t'
  | '\t' => some '\t'
  | 'n' => some '\n'
  | 'v' => some '\x0b'
  | 'f' => some '\x0c'
  | 'r' => some '\r'
  | 'e' => some '\x1b'
  | ' ' => some ' '
  | '"' => some '"'
  | '/' => some '/'
  | '\\' => some '\\'
  | 'N' => some '\u0085'
  | '_' => some '\u00a0'
  | 'L' => some '\u2028'
  | 'P' => some '\u2029'
  | _ => none

/-- How many hexadecimal digits follow the letter of an escape by code point. -/
def codeWidth? (c : Char) : Option Nat :=
  match c with
  | 'x' => some 2
  | 'u' => some 4
  | 'U' => some 8
  | _ => none

/-- The character with this code point, if there is one. -/
def charOfCode? (n : Nat) : Option Char :=
  if h : n.isValidChar then some ⟨n.toUInt32, by
    have : n < UInt32.size := by
      rcases h with h | ⟨_, h⟩
      · exact Nat.lt_trans h (by decide)
      · exact Nat.lt_trans h (by decide)
    simpa [UInt32.isValidChar, Nat.toUInt32, UInt32.toNat_ofNat_of_lt' this] using h⟩
  else none

/-- Reads one word of a scalar in single quotes; a quote in it is written twice. -/
def singleQuotedWord (word : List Char) : List Char → List Char × WordEnd × List Char
  | [] => (word.reverse, .gap, [])
  | '\'' :: '\'' :: rest => singleQuotedWord ('\'' :: word) rest
  | c :: rest =>
    if c = '\'' then (word.reverse, .quote, c :: rest)
    else if isSpaceOrBreak c then (word.reverse, .gap, c :: rest)
    else singleQuotedWord (c :: word) rest

/-- Reads one word of a scalar in double quotes; `fuel` is the length of the text. -/
def doubleQuotedWord : (fuel : Nat) → (word : List Char) → List Char →
    Except String (List Char × WordEnd × List Char)
  | 0, word, s => .ok (word.reverse, .gap, s)
  | fuel + 1, word, s =>
    match s with
    | [] => .ok (word.reverse, .gap, [])
    | '"' :: rest => .ok (word.reverse, .quote, '"' :: rest)
    | '\\' :: rest =>
      match rest with
      | [] => .error "found unknown escape character"
      | c :: after =>
        if isBreak c then .ok (word.reverse, .escapedBreak, rest)
        else
          match unescape? c, codeWidth? c with
          | some x, _ => doubleQuotedWord fuel (x :: word) after
          | none, some width =>
            if after.length < width then .error "did not find expected hexdecimal number"
            else
              match hexNumber? (after.take width) with
              | none => .error "did not find expected hexdecimal number"
              | some n =>
                match charOfCode? n with
                | none => .error "found invalid Unicode character escape code"
                | some x => doubleQuotedWord fuel (x :: word) (after.drop width)
          | none, none => .error "found unknown escape character"
    | c :: rest =>
      if isSpaceOrBreak c then .ok (word.reverse, .gap, c :: rest)
      else doubleQuotedWord fuel (c :: word) rest

/-- Reads words and gaps up to and with the closing quote. -/
def scanQuotedFrom (single : Bool) :
    (fuel : Nat) → (text : List Char) → Cursor → Except SyntaxError (List Char × Cursor)
  | 0, _, c => c.fail "found unexpected end of stream"
  | fuel + 1, text, c =>
    if c.atDocumentIndicator then c.fail "found unexpected document indicator"
    else if c.rest.isEmpty then c.fail "found unexpected end of stream"
    else
      let word := if single then .ok (singleQuotedWord [] c.rest)
        else doubleQuotedWord (c.rest.length + 1) [] c.rest
      match word with
      | .error reason => c.fail reason
      | .ok (word, stop, rest) => do
        let c := c.advance (c.rest.length - rest.length)
        let text := text ++ word
        match stop with
        | .quote => return (text, c.advance 1)
        | .gap =>
          let (g, c) ← scanGap 0 (c.rest.length + 1) Gap.none c
          scanQuotedFrom single fuel (text ++ g.folded) c
        | .escapedBreak =>
          let c := c.readBreak.2
          if c.sees '"' then return (text, c.advance 1)
          else
            let (g, c) ← scanGap 0 (c.rest.length + 1) Gap.afterEscape c
            scanQuotedFrom single fuel (text ++ g.folded) c

/-- Reads a quoted scalar at its opening quote. -/
def scanQuoted (single : Bool) (c : Cursor) : Except SyntaxError (List Char × Cursor) :=
  scanQuotedFrom single (c.rest.length + 1) [] (c.advance 1)

/-! ### Block scalars -/

/-- What becomes of the line breaks at the end of a block scalar. -/
inductive Chomping where
  /-- All are dropped. -/
  | strip
  /-- One is kept. -/
  | clip
  /-- All are kept. -/
  | keep
  deriving DecidableEq, Repr

/-- Reads the indicators after `|` or `>`: a chomping mark and an indentation digit in
    either order. The digit is zero when absent. -/
def blockHeader (c : Cursor) : Except SyntaxError (Chomping × Nat × Cursor) :=
  let chomp (c : Cursor) : Chomping × Cursor :=
    if c.sees '+' then (.keep, c.advance 1)
    else if c.sees '-' then (.strip, c.advance 1)
    else (.clip, c)
  let digit (c : Cursor) : Except SyntaxError (Nat × Cursor) :=
    match c.rest with
    | d :: _ =>
      if d = '0' then c.fail "found an indentation indicator equal to 0"
      else if isDigit d then .ok (d.toNat - '0'.toNat, c.advance 1)
      else .ok (0, c)
    | [] => .ok (0, c)
  if c.sees '+' || c.sees '-' then do
    let (chomping, c) := chomp c
    let (width, c) ← digit c
    return (chomping, width, c)
  else do
    let (width, c) ← digit c
    if width = 0 then return (.clip, 0, c)
    else
      let (chomping, c) := chomp c
      return (chomping, width, c)

/-- Reads the indentation of lines and the breaks of empty ones. While `indent` is zero
    every space counts as indentation; the widest is given back. -/
def blockBreaks (indent : Nat) :
    (fuel widest : Nat) → (breaks : List Char) → Cursor →
      Except SyntaxError (Nat × List Char × Cursor)
  | 0, widest, breaks, c => .ok (widest, breaks, c)
  | fuel + 1, widest, breaks, c =>
    let spaces := (c.rest.takeWhile (· == ' ')).length
    let c := c.advance (if indent = 0 then spaces else min spaces (indent - c.column))
    let widest := max widest c.column
    if (indent = 0 ∨ c.column < indent) ∧ c.sees '\t' then
      c.fail "found a tab character where an indentation space is expected"
    else if c.rest.head?.any isBreak then
      let (text, c) := c.readBreak
      blockBreaks indent fuel widest (breaks ++ text) c
    else .ok (widest, breaks, c)

/-- A block scalar while it is read. -/
structure BlockText where
  text : List Char
  /-- The break after the last line. -/
  last : List Char
  /-- The breaks of the empty lines after it. -/
  empty : List Char
  /-- Whether the last line began with a blank. -/
  blank : Bool

/-- The text up to a next line, whose first character is a blank or not: a folded scalar
    joins two lines, neither of which begins with a blank, by a space. -/
def BlockText.joined (b : BlockText) (literal blank : Bool) : List Char :=
  let break_ :=
    if ¬ literal ∧ b.last = ['\n'] ∧ ¬ b.blank ∧ ¬ blank then
      if b.empty.isEmpty then [' '] else []
    else b.last
  b.text ++ break_ ++ b.empty

/-- Reads the lines of a block scalar that is indented by `indent`. -/
def blockLines (literal : Bool) (indent : Nat) :
    (fuel : Nat) → BlockText → Cursor → Except SyntaxError (BlockText × Cursor)
  | 0, b, c => .ok (b, c)
  | fuel + 1, b, c =>
    if c.column = indent ∧ ¬ c.rest.isEmpty then do
      let blank := c.rest.head?.any isBlank
      let line := c.rest.takeWhile (! isBreak ·)
      let text := b.joined literal blank ++ line
      let (last, c) := (c.advance line.length).readBreak
      let (_, empty, c) ← blockBreaks indent (c.rest.length + 1) 0 [] c
      blockLines literal indent fuel ⟨text, last, empty, blank⟩ c
    else .ok (b, c)

/-- Reads a block scalar at its indicator, inside collections that are indented by
    `parent`. -/
def scanBlock (literal : Bool) (parent : Int) (c : Cursor) :
    Except SyntaxError (List Char × Cursor) := do
  let (chomping, width, c) ← blockHeader (c.advance 1)
  let c := c.skipComment
  if ¬ endsLine c.rest then c.fail "did not find expected comment or line break"
  else
    let c := c.readBreak.2
    let indent := if width = 0 then 0 else (max parent 0).toNat + width
    let (widest, empty, c) ← blockBreaks indent (c.rest.length + 1) 0 [] c
    let indent := if indent = 0 then max (max widest (parent + 1).toNat) 1 else indent
    let (b, c) ← blockLines literal indent (c.rest.length + 1) ⟨[], [], empty, false⟩ c
    return (match chomping with
      | .strip => b.text
      | .clip => b.text ++ b.last
      | .keep => b.text ++ b.last ++ b.empty, c)

end SchemaEmbed.Yaml
