import SchemaEmbed.FileSystem.OsError
import SchemaEmbed.Path
import SchemaEmbed.Value

namespace SchemaEmbed

/-!
# A tree of files

* `Actor` — who acts: the superuser, to whom modes mean nothing, or a user;
* `Inode` — a file, a directory or a symbolic link, with its mode and owner; several
  entries of directories can lead to one file;
* `FileSystem` — all of them by number; number zero is the directory in which every
  relative path begins;
* `FileSystem.resolve` — where a path leads, with symbolic links followed; outside of the
  tree nothing is found;
* `FileSystem.entryOf` — the directory and the name that a path ends in.
-/

/-- Who acts. -/
inductive Actor where
  | superuser
  | user
  deriving DecidableEq, Repr

/-- What one can be permitted to do. -/
inductive Access where
  | read
  | write
  /-- To look for an entry of a directory. -/
  | search
  deriving DecidableEq, Repr

/-- The place of a permission among the three bits of a mode. -/
def Access.weight : Access → Nat
  | read => 4
  | write => 2
  | search => 1

/-- What stands under a number. -/
inductive Content where
  | file (bytes : ByteArray)
  | directory (entries : List (String × Nat))
  | link (target : String)

/-- A file, a directory or a symbolic link. -/
structure Inode where
  mode : Nat
  owner : Actor
  content : Content

namespace Inode

/-- Whether an actor is permitted something. The first three bits of the mode are for the
    owner, the last three for all others. -/
def permits (i : Inode) (actor : Actor) (access : Access) : Bool :=
  match actor with
  | .superuser => true
  | .user =>
    let bits := if i.owner = .user then i.mode / 64 else i.mode
    bits / access.weight % 2 == 1

/-- Whether entries of a directory are safe from users who own neither it nor them. -/
def isSticky (i : Inode) : Bool := i.mode / 512 % 2 == 1

end Inode

/-- All files, directories and links by number. -/
structure FileSystem where
  inodes : List Inode

namespace FileSystem

/-- The directory in which every relative path begins, with nothing in it. -/
def empty : FileSystem := ⟨[⟨0o777, .superuser, .directory []⟩]⟩

/-- What stands under a number. -/
def inode? (fs : FileSystem) (n : Nat) : Option Inode := fs.inodes[n]?

/-- Changes what stands under a number. -/
def modify (fs : FileSystem) (n : Nat) (f : Inode → Inode) : FileSystem :=
  ⟨fs.inodes.modify n f⟩

/-- Puts something under a number that is new. -/
def add (fs : FileSystem) (i : Inode) : Nat × FileSystem := (fs.inodes.length, ⟨fs.inodes ++ [i]⟩)

/-- Changes the entries of a directory. -/
def modifyEntries (fs : FileSystem) (n : Nat)
    (f : List (String × Nat) → List (String × Nat)) : FileSystem :=
  fs.modify n fun i =>
    match i.content with
    | .directory entries => { i with content := .directory (f entries) }
    | _ => i

/-! ### Paths -/

/-- A part of a path. -/
inductive Part where
  /-- A dot, or nothing after the last slash: what is here must be a directory. -/
  | here
  | up
  | name (s : String)
  deriving DecidableEq, Repr

/-- The parts of a path that is not absolute. -/
def Part.ofSegments : List (List Char) → List Part
  | [] => []
  | [[]] => [.here]
  | s :: rest =>
    if s = [] then Part.ofSegments rest
    else if s = ['.'] then .here :: Part.ofSegments rest
    else if s = ['.', '.'] then .up :: Part.ofSegments rest
    else .name (String.ofList s) :: Part.ofSegments rest

/-- The parts of a path. -/
def partsOf (path : String) : List Part := Part.ofSegments (Path.parts path.toList)

/-- Whether a path does not begin where relative paths do. -/
def isAbsolute (path : String) : Bool := path.toList.head? == some '/'

/-- A place: a number and the numbers of the directories around it, innermost first.
    There is none outside of the tree. -/
abbrev Trail := List Nat

/-- Where relative paths begin. -/
def start : Trail := [0]

/-- The longest name in octets. -/
def maxName : Nat := 255

/-- The longest path in octets. -/
def maxPath : Nat := 4095

/-- How many symbolic links are followed on the way of a path. -/
def maxLinks : Nat := 40

/-- Where a walk stops. -/
inductive Stop where
  | arrived (t : Trail)
  /-- At a symbolic link in the directory `t`, with the parts of the path after it. -/
  | link (t : Trail) (target : String) (rest : List Part)

/-- What is at a place must be a directory. -/
def requireDirectory (fs : FileSystem) (t : Trail) : Except OsError Unit :=
  match t with
  | [] => .ok ()
  | n :: _ =>
    match fs.inode? n with
    | some ⟨_, _, .directory _⟩ => .ok ()
    | _ => .error .notDirectory

/-- The number of an entry of the directory at a place. -/
def lookUp (fs : FileSystem) (actor : Actor) (t : Trail) (name : String) :
    Except OsError Nat :=
  match t with
  | [] => .error .notFound
  | n :: _ =>
    match fs.inode? n with
    | some ⟨mode, owner, .directory entries⟩ =>
      if ! Inode.permits ⟨mode, owner, .directory entries⟩ actor .search then
        .error .accessDenied
      else if name.utf8ByteSize > maxName then .error .nameTooLong
      else
        match Entries.find? name entries with
        | some m => .ok m
        | none => .error .notFound
    | _ => .error .notDirectory

/-- Walks along parts of a path up to a symbolic link; one that the path ends in is
    followed only if `last` is set. -/
def advance (fs : FileSystem) (actor : Actor) (last : Bool) :
    Trail → List Part → Except OsError Stop
  | t, [] => .ok (.arrived t)
  | t, .here :: rest => do
    fs.requireDirectory t
    advance fs actor last t rest
  | t, .up :: rest => do
    fs.requireDirectory t
    advance fs actor last t.tail rest
  | t, .name s :: rest => do
    let m ← fs.lookUp actor t s
    match fs.inode? m with
    | some ⟨_, _, .link target⟩ =>
      if last || ! rest.isEmpty then return .link t target rest
      else advance fs actor last (m :: t) rest
    | _ => advance fs actor last (m :: t) rest

/-- Walks along parts of a path, following at most `links` symbolic links. -/
def walk (fs : FileSystem) (actor : Actor) (last : Bool) :
    (links : Nat) → Trail → List Part → Except OsError Trail
  | links, t, parts => do
    match ← fs.advance actor last t parts with
    | .arrived t => return t
    | .link t target rest =>
      match links with
      | 0 => throw .tooManyLinks
      | links + 1 =>
        walk fs actor last links (if isAbsolute target then [] else t) (partsOf target ++ rest)

/-- The place that a path leads to. -/
def resolve (fs : FileSystem) (actor : Actor) (last : Bool) (path : String) :
    Except OsError Trail :=
  if path.isEmpty then .error .notFound
  else if path.utf8ByteSize > maxPath then .error .nameTooLong
  else fs.walk actor last maxLinks (if isAbsolute path then [] else start) (partsOf path)

/-- The number of the directory that a path ends in, and its last name. -/
def entryOf (fs : FileSystem) (actor : Actor) (path : String) :
    Except OsError (Nat × String) := do
  match (partsOf path).getLast? with
  | some (.name s) =>
    let parts := (partsOf path).dropLast
    match ← fs.walk actor true maxLinks (if isAbsolute path then [] else start) parts with
    | [] => throw .accessDenied
    | n :: _ =>
      fs.requireDirectory [n]
      return (n, s)
  | _ => throw .isDirectory

/-! ### Reading -/

/-- Why the text of a file cannot be had. -/
inductive ReadFault where
  | os (e : OsError)
  | nullInPath
  | notText
  deriving DecidableEq, Repr

/-- The wording of a fault. -/
def ReadFault.message : ReadFault → String
  | .os e => e.message
  | .nullInPath => "file name contained an unexpected NUL byte"
  | .notText => "stream did not contain valid UTF-8"

/-- The octets of the file that a path leads to. -/
def readBytes (fs : FileSystem) (actor : Actor) (path : String) : Except OsError ByteArray := do
  match ← fs.resolve actor true path with
  | [] => throw .isDirectory
  | n :: _ =>
    match fs.inode? n with
    | none => throw .notFound
    | some i =>
      if ! i.permits actor .read then throw .accessDenied
      else
        match i.content with
        | .file bytes => return bytes
        | _ => throw .isDirectory

/-- The text of the file that a path leads to. -/
def readText (fs : FileSystem) (actor : Actor) (path : String) : Except ReadFault String := do
  if path.toList.contains '\x00' then throw .nullInPath
  else
    let bytes ← (fs.readBytes actor path).mapError .os
    match String.fromUTF8? bytes with
    | some text => return text
    | none => throw .notText

end FileSystem

end SchemaEmbed
