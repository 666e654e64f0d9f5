import SchemaEmbed.FileSystem

namespace SchemaEmbed.FileSystem

/-!
# Listing a tree

* `Listed` — what a listing shows of an entry;
* `listing` — all entries as an actor sees them: a directory before what is in it, and
  the entries of a directory by the octets of their names. What may not be read is shown
  as empty.
-/

/-- What a listing shows of an entry. -/
inductive Listed where
  | link (path target : String)
  | directory (path : String)
  | file (path : String) (mode : Nat) (bytes : ByteArray)

/-- The permission bits of a mode. -/
def permissionBits (mode : Nat) : Nat := mode % 0o1000

/-- The entries in the order of their names. -/
def sortEntries (entries : List (String × Nat)) : List (String × Nat) :=
  entries.mergeSort fun a b => decide (a.1 ≤ b.1)

/-- The path of an entry in a directory; the directory where paths begin has none. -/
def joinPath (directory name : String) : String :=
  if directory.isEmpty then name else directory ++ "/" ++ name

/-- All entries below a directory, `depth` levels deep. -/
def listingBelow (fs : FileSystem) (actor : Actor) :
    (depth : Nat) → (path : String) → (n : Nat) → List Listed
  | 0, _, _ => []
  | depth + 1, path, n =>
    match fs.inode? n with
    | some ⟨mode, owner, .directory entries⟩ =>
      let here : Inode := ⟨mode, owner, .directory entries⟩
      if ! (here.permits actor .read && here.permits actor .search) then []
      else
        (sortEntries entries).flatMap fun (name, m) =>
          let path := joinPath path name
          match fs.inode? m with
          | some ⟨_, _, .link target⟩ => [.link path target]
          | some ⟨_, _, .directory _⟩ => .directory path :: listingBelow fs actor depth path m
          | some ⟨mode, owner, .file bytes⟩ =>
            let readable := Inode.permits ⟨mode, owner, .file bytes⟩ actor .read
            [.file path (permissionBits mode) (if readable then bytes else ByteArray.empty)]
          | none => []
    | _ => []

/-- All entries of the tree. -/
def listing (fs : FileSystem) (actor : Actor) : List Listed :=
  fs.listingBelow actor fs.inodes.length "" 0

end SchemaEmbed.FileSystem
