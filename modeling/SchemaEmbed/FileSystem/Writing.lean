import SchemaEmbed.FileSystem
import SchemaEmbed.Options

namespace SchemaEmbed.FileSystem

/-!
# Writing a file that exists

* `writeInPlace` — replaces what the file that a path leads to holds; its entries and its
  mode stay;
* `AtomicWrite` — the plan of a replacement by a new file in the same directory, and
  `AtomicWrite.steps`, the changes of the tree one after the other: the entry leads to
  the old file up to the last step and to the complete new one after it;
* `writeAtomic` — makes the plan and carries it out. Whether every step will be permitted
  shows before the first one, because no step changes what decides on it.
-/

/-- Why a file cannot be written: an error, and the path of the temporary file if that is
    what could not be made. -/
structure WriteFault where
  error : OsError
  temporary : Option String
  deriving DecidableEq, Repr

/-- The wording of a fault. -/
def WriteFault.message (f : WriteFault) : String :=
  match f.temporary with
  | some path => f.error.message ++ " at path \"" ++ path ++ "\""
  | none => f.error.message

/-- Replaces what a file holds. -/
def setBytes (fs : FileSystem) (n : Nat) (bytes : ByteArray) : FileSystem :=
  fs.modify n fun i => { i with content := .file bytes }

/-- Changes a mode. -/
def setMode (fs : FileSystem) (n mode : Nat) : FileSystem :=
  fs.modify n fun i => { i with mode }

/-- Replaces what the file that a path leads to holds. -/
def writeInPlace (fs : FileSystem) (actor : Actor) (path : String) (bytes : ByteArray) :
    Except OsError FileSystem := do
  match ← fs.resolve actor true path with
  | [] => throw .isDirectory
  | n :: _ =>
    match fs.inode? n with
    | some ⟨mode, owner, .file old⟩ =>
      if Inode.permits ⟨mode, owner, .file old⟩ actor .write then return fs.setBytes n bytes
      else throw .accessDenied
    | some _ => throw .isDirectory
    | none => throw .notFound

/-! ### Replacement by a new file -/

/-- The plan of a replacement. -/
structure AtomicWrite where
  /-- The number of the directory. -/
  directory : Nat
  /-- The entry that is replaced. -/
  name : String
  /-- The entry of the new file until then. -/
  temporary : String
  actor : Actor
  /-- The mode of the old file. -/
  mode : Nat
  bytes : ByteArray

/-- The mode of a temporary file. -/
def temporaryMode : Nat := 0o600

/-- The first of the names `.tmp0`, `.tmp1`, … that is not taken. -/
def temporaryName (taken : List String) : String :=
  let candidates := (List.range (taken.length + 1)).map fun k => ".tmp" ++ toString k
  (candidates.find? fun s => ! taken.contains s).getD ".tmp"

/-- Makes an entry lead to a number, without another entry. -/
def renameEntry (old new : String) (entries : List (String × Nat)) : List (String × Nat) :=
  match Entries.find? old entries with
  | some n => Entries.put new n (entries.filter fun e => e.1 != old)
  | none => entries

namespace AtomicWrite

/-- Adds the temporary file, which is empty. -/
def createTemporary (w : AtomicWrite) (fs : FileSystem) : FileSystem :=
  let (n, fs) := fs.add ⟨temporaryMode, w.actor, .file ByteArray.empty⟩
  fs.modifyEntries w.directory (Entries.put w.temporary n)

/-- The number of the temporary file. -/
def temporaryNumber? (w : AtomicWrite) (fs : FileSystem) : Option Nat :=
  match fs.inode? w.directory with
  | some ⟨_, _, .directory entries⟩ => Entries.find? w.temporary entries
  | _ => none

/-- Changes the temporary file. -/
def onTemporary (w : AtomicWrite) (f : FileSystem → Nat → FileSystem) (fs : FileSystem) :
    FileSystem :=
  match w.temporaryNumber? fs with
  | some n => f fs n
  | none => fs

/-- Writes the temporary file. -/
def writeTemporary (w : AtomicWrite) : FileSystem → FileSystem :=
  w.onTemporary fun fs n => fs.setBytes n w.bytes

/-- Gives the temporary file the mode of the old one. -/
def copyMode (w : AtomicWrite) : FileSystem → FileSystem :=
  w.onTemporary fun fs n => fs.setMode n w.mode

/-- Puts the temporary file in place of the old one. -/
def replace (w : AtomicWrite) (fs : FileSystem) : FileSystem :=
  fs.modifyEntries w.directory (renameEntry w.temporary w.name)

/-- The changes of the tree one after the other. -/
def steps (w : AtomicWrite) : List (FileSystem → FileSystem) :=
  [w.createTemporary, w.writeTemporary, w.copyMode, w.replace]

/-- The tree after the first `count` changes. -/
def after (w : AtomicWrite) (count : Nat) (fs : FileSystem) : FileSystem :=
  (w.steps.take count).foldl (fun fs step => step fs) fs

/-- The tree after all changes. -/
def carryOut (w : AtomicWrite) (fs : FileSystem) : FileSystem := w.after w.steps.length fs

end AtomicWrite

/-- Whether an actor may take the place of an entry of a sticky directory. -/
def mayReplace (actor : Actor) (directory old : Inode) : Bool :=
  actor = .superuser || ! directory.isSticky || directory.owner = actor || old.owner = actor

/-- The path of an entry in the directory of a path. -/
def siblingPath (path name : String) : String :=
  let back := path.toList.reverse.dropWhile (· != '/')
  if back.isEmpty then "./" ++ name else String.ofList back.reverse ++ name

/-- The plan to replace the file at a path. -/
def planAtomic (fs : FileSystem) (actor : Actor) (path : String) (bytes : ByteArray) :
    Except WriteFault AtomicWrite := do
  let plainly (e : OsError) : WriteFault := ⟨e, none⟩
  let place ← (fs.resolve actor true path).mapError plainly
  let (directory, name) ← (fs.entryOf actor path).mapError plainly
  match place.head? >>= fs.inode?, fs.inode? directory with
  | some old, some ⟨mode, owner, .directory entries⟩ =>
    let parent : Inode := ⟨mode, owner, .directory entries⟩
    let temporary := temporaryName (Entries.keys entries)
    if ! (parent.permits actor .write && parent.permits actor .search) then
      throw ⟨.accessDenied, some (siblingPath path temporary)⟩
    else
      match Entries.find? name entries >>= fs.inode? with
      | none => throw ⟨.notFound, none⟩
      | some ⟨_, _, .directory _⟩ => throw ⟨.isDirectory, none⟩
      | some entry =>
        if ! mayReplace actor parent entry then throw ⟨.notPermitted, none⟩
        else return ⟨directory, name, temporary, actor, old.mode, bytes⟩
  | _, _ => throw ⟨.notFound, none⟩

/-- Replaces the file at a path by a new one. -/
def writeAtomic (fs : FileSystem) (actor : Actor) (path : String) (bytes : ByteArray) :
    Except WriteFault FileSystem := do
  let w ← fs.planAtomic actor path bytes
  return w.carryOut fs

/-- Writes a text to the file at a path. -/
def writeText (fs : FileSystem) (actor : Actor) (mode : WriteMode) (path text : String) :
    Except WriteFault FileSystem :=
  match mode with
  | .inPlace => (fs.writeInPlace actor path text.toUTF8).mapError fun e => ⟨e, none⟩
  | .atomic => fs.writeAtomic actor path text.toUTF8

end SchemaEmbed.FileSystem
