import SchemaEmbed.FileSystem.Writing

namespace SchemaEmbed.FileSystem

/-!
# Shaping a tree

What the superuser can do to a tree besides writing files that exist:

* `putFile` — a file with its parent directories;
* `makeDirectory`, `makeLink`, `addName` — directories, symbolic links, and further names
  of a file;
* `changeMode`, `remove` — modes, and entries that go away with all below them.
-/

/-- The mode of a new directory. -/
def directoryMode : Nat := 0o755

/-- The mode of a new file. -/
def fileMode : Nat := 0o644

/-- The mode of a symbolic link. -/
def linkMode : Nat := 0o777

/-- The entries of a directory. -/
def entries? (fs : FileSystem) (n : Nat) : Option (List (String × Nat)) :=
  match fs.inode? n with
  | some ⟨_, _, .directory entries⟩ => some entries
  | _ => none

/-- Adds an entry to a directory; it must be new. -/
def addEntry (fs : FileSystem) (directory : Nat) (name : String) (n : Nat) :
    Except OsError FileSystem :=
  match fs.entries? directory with
  | none => .error .notDirectory
  | some entries =>
    if name.utf8ByteSize > maxName then .error .nameTooLong
    else if (Entries.find? name entries).isSome then .error .alreadyExists
    else .ok (fs.modifyEntries directory (Entries.put name n))

/-- Adds something under a new number and an entry for it. -/
def addInode (fs : FileSystem) (path : String) (i : Inode) : Except OsError FileSystem := do
  let (directory, name) ← fs.entryOf .superuser path
  let (n, fs) := fs.add i
  fs.addEntry directory name n

/-- Makes a directory. -/
def makeDirectory (fs : FileSystem) (path : String) : Except OsError FileSystem :=
  fs.addInode path ⟨directoryMode, .superuser, .directory []⟩

/-- Makes a symbolic link. -/
def makeLink (fs : FileSystem) (path target : String) : Except OsError FileSystem :=
  fs.addInode path ⟨linkMode, .superuser, .link target⟩

/-- Gives what a path ends in one more name. -/
def addName (fs : FileSystem) (path target : String) : Except OsError FileSystem := do
  match ← fs.resolve .superuser false target with
  | [] => throw .notPermitted
  | n :: _ =>
    if (fs.entries? n).isSome then throw .notPermitted
    else
      let (directory, name) ← fs.entryOf .superuser path
      fs.addEntry directory name n

/-- Changes the mode of what a path leads to. -/
def changeMode (fs : FileSystem) (path : String) (mode : Nat) : Except OsError FileSystem := do
  match ← fs.resolve .superuser true path with
  | [] => throw .notPermitted
  | n :: _ => return fs.setMode n mode

/-- Removes the entry that a path ends in. -/
def remove (fs : FileSystem) (path : String) : Except OsError FileSystem := do
  let _ ← fs.resolve .superuser false path
  let (directory, name) ← fs.entryOf .superuser path
  return fs.modifyEntries directory fun entries => entries.filter fun e => e.1 != name

/-! ### Files with their directories -/

/-- The paths of the directories that a path leads through, outermost first. -/
def parentPaths (path : String) : List String :=
  let segments := Path.parts path.toList
  (List.range segments.length).filterMap fun k =>
    let text := ['/'].intercalate (segments.take k)
    if text.isEmpty then none else some (String.ofList text)

/-- Makes the missing directories that a path leads through. -/
def makeParents (fs : FileSystem) (path : String) : Except OsError FileSystem :=
  (parentPaths path).foldlM (fun fs parent =>
    match fs.resolve .superuser true parent with
    | .ok t => do
      fs.requireDirectory t
      return fs
    | .error _ => fs.makeDirectory parent) fs

/-- The mode that the directory of a new file gets. -/
def openMode : Nat := 0o777

/-- Puts a file at a path, whose directories are made and opened to all. A file that is
    there is written in place. -/
def putFile (fs : FileSystem) (path : String) (bytes : ByteArray) (mode : Nat) :
    Except OsError FileSystem := do
  let fs ← fs.makeParents path
  let fs ← match (parentPaths path).getLast? with
    | some parent => fs.changeMode parent openMode
    | none => pure fs
  let fs ← match fs.resolve .superuser true path with
    | .ok _ => fs.writeInPlace .superuser path bytes
    | .error e =>
      if e = .notFound then fs.addInode path ⟨fileMode, .superuser, .file bytes⟩ else throw e
  fs.changeMode path mode

end SchemaEmbed.FileSystem
