namespace SchemaEmbed.Yaml

/-!
# Tokens of YAML

* `Style` — how a scalar is written; only a plain one is read for its meaning;
* `TagName` — a tag or a part of one. Octets in a tag can be escaped, and then need not be
  a text;
* `Token` — what a text is cut into. The beginnings and ends of block collections, which
  a text shows by indentation alone, are tokens too.
-/

/-- How a scalar is written. -/
inductive Style where
  | plain
  | singleQuoted
  | doubleQuoted
  | literal
  | folded
  deriving DecidableEq, Repr

/-- A tag, or a part of one. -/
inductive TagName where
  /-- Octets that are a text. -/
  | text (name : String)
  /-- Octets that are no text; they may begin with an exclamation mark. There is at least
      one of them. -/
  | unreadable (isLocal : Bool)
  deriving DecidableEq, Repr

/-- Whether the octets begin with an exclamation mark. -/
def TagName.startsLocal : TagName → Bool
  | .text name => name.toList.head? == some '!'
  | .unreadable isLocal => isLocal

/-- One part after the other. Octets that are no text stay so with a text before or after
    them. -/
def TagName.append : TagName → TagName → TagName
  | .text before, .text after => .text (before ++ after)
  | .text before, .unreadable isLocal =>
    .unreadable (if before = "" then isLocal else (TagName.text before).startsLocal)
  | .unreadable isLocal, _ => .unreadable isLocal

/-- A piece of a text. -/
inductive Token where
  | versionDirective (major minor : Nat)
  | tagDirective (handle : String) (target : TagName)
  | documentStart
  | documentEnd
  | streamEnd
  | blockSequenceStart
  | blockMappingStart
  | blockEnd
  | flowSequenceStart
  | flowSequenceEnd
  | flowMappingStart
  | flowMappingEnd
  | blockEntry
  | flowEntry
  | key
  | value
  | alias (name : String)
  | anchor (name : String)
  /-- A handle and a suffix. The handle is empty if the suffix is the whole tag. -/
  | tag (handle : String) (suffix : TagName)
  | scalar (text : String) (style : Style)
  deriving DecidableEq, Repr

end SchemaEmbed.Yaml
