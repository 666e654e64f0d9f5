namespace SchemaEmbed

/-!
# Paths

* `Path.lastName?` — the name that a path ends in; empty parts and dots after it do not
  count, and a path that ends in its parent has none;
* `Path.extension?` — what follows the last dot of that name, unless it is its first
  character.
-/

namespace Path

/-- The parts of a path between its slashes. -/
def parts (path : List Char) : List (List Char) := path.splitOn '/'

/-- The name that a path ends in. -/
def lastName? (path : List Char) : Option (List Char) :=
  match (parts path).reverse.dropWhile fun part => part == [] || part == ['.'] with
  | name :: _ => if name = ['.', '.'] then none else some name
  | [] => none

/-- What follows the last dot of the name that a path ends in. -/
def extension? (path : String) : Option String := do
  let name ← lastName? path.toList
  let back := name.reverse
  match back.dropWhile (· != '.') with
  | [] | ['.'] => none
  | _ => some (String.ofList (back.takeWhile (· != '.')).reverse)

end Path

end SchemaEmbed
