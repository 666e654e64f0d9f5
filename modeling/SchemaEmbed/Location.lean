namespace SchemaEmbed

/-!
# Locations in a tree

A message names a place by the path to it from the root:

* `Location.item` — an item of a sequence, by its index in brackets;
* `Location.entry` — an entry of a mapping, by its key after a dot; the dot is left out
  where nothing is before it.
-/

namespace Location

/-- The location of an item of the sequence at `location`. -/
def item (location : String) (index : Nat) : String := s!"{location}[{index}]"

/-- The location of an entry of the mapping at `location`. -/
def entry (location key : String) : String :=
  if location.isEmpty then key else location ++ "." ++ key

end Location

end SchemaEmbed
