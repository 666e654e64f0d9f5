import SchemaEmbed.Proofs.FileSystem.Tree
import SchemaEmbed.Proofs.Outcome

namespace SchemaEmbed.FileSystem

/-!
# What paths lead to, and what is read there

Reading a file is resolving its path and then looking at what stands under the number that the path
leads to. Everything that can go wrong on the way is turned into one condition for success here, so
that later modules ask whether a path can be read and never how:

* `resolve_kept` — a path is resolved as before if its walk comes to the same;
* `resolve_eq_ok_iff` / `entryOf_eq_ok_iff` — when a path leads somewhere, or ends in a name of a
  directory;
* `readBytes_eq_ok_iff` / `readText_eq_ok_iff` — when a path can be read, and `names_of_readText`:
  then it names a file;
* `readText_superuser` — the superuser reads what anyone reads.
-/

variable {fs : FileSystem} {actor : Actor} {path : String}

/-! ### Where a path leads

The functions that resolve a path wrap a walk in checks of the path itself. Once those are put
aside, statements about paths are statements about walks.
-/

/-- A path is resolved as before if its walk comes to the same; whether it is empty or too long
    has nothing to do with the files. -/
theorem resolve_kept {fs' : FileSystem}
    (h : Kept .tooManyLinks .notDirectory (fs.walk actor true maxLinks (base path) (partsOf path))
      (fs'.walk actor true maxLinks (base path) (partsOf path))) :
    Kept .tooManyLinks .notDirectory (fs.resolve actor true path)
      (fs'.resolve actor true path) := by
  unfold resolve
  by_cases hempty : path.isEmpty
  · simp only [hempty, ↓reduceIte]; exact .same
  · by_cases hlong : path.utf8ByteSize > maxPath
    · simp only [hempty, hlong, ↓reduceIte]; exact .same
    · simp only [hempty, hlong, ↓reduceIte]; exact h

/-- A path that is neither empty nor too long is walked along. -/
theorem resolve_eq_walk (hempty : path.isEmpty = false) (hlong : path.utf8ByteSize ≤ maxPath) :
    fs.resolve actor true path = fs.walk actor true maxLinks (base path) (partsOf path) := by
  rw [resolve, hempty, if_neg Bool.false_ne_true, if_neg (Nat.not_lt.mpr hlong)]
  rfl

/-- A path leads somewhere if it is neither empty nor too long and its walk arrives. -/
theorem resolve_eq_ok_iff {t : Trail} :
    fs.resolve actor true path = .ok t ↔
      path.isEmpty = false ∧ path.utf8ByteSize ≤ maxPath ∧
        fs.walk actor true maxLinks (base path) (partsOf path) = .ok t := by
  unfold resolve base
  by_cases hempty : path.isEmpty
  · simp [hempty]
  · by_cases hlong : path.utf8ByteSize > maxPath
    · simp [hempty, hlong, Nat.not_le_of_gt hlong]
    · simp [hempty, hlong, Nat.le_of_not_gt hlong]

/-- The superuser is led where anyone is led. -/
theorem resolve_superuser {t : Trail} (h : fs.resolve actor true path = .ok t) :
    fs.resolve .superuser true path = .ok t := by
  obtain ⟨hempty, hlong, hw⟩ := resolve_eq_ok_iff.mp h
  exact resolve_eq_ok_iff.mpr ⟨hempty, hlong, walk_superuser hw⟩

/-- The check that a number is a directory succeeds exactly if it has entries. -/
theorem requireDirectory_eq_ok_iff {n : Nat} {u : Trail} :
    fs.requireDirectory (n :: u) = .ok () ↔ (fs.entries? n).isSome := by
  simp only [requireDirectory, entries?]
  rcases fs.inode? n with _ | ⟨mode, owner, file | entries | target⟩ <;> simp

/-- A path ends in a name of a directory if its last part is a name and the walk along the parts
    before it arrives at a directory. Nothing is asked of the name itself, which need not be
    there. -/
theorem entryOf_eq_ok_iff {d : Nat} {name : String} :
    fs.entryOf actor path = .ok (d, name) ↔
      ∃ parts around, partsOf path = parts ++ [.name name] ∧
        fs.walk actor true maxLinks (base path) parts = .ok (d :: around) ∧
        (fs.entries? d).isSome := by
  constructor
  · intro h
    unfold entryOf at h
    split at h
    · next s hlast =>
      obtain ⟨parts, hparts⟩ := List.getLast?_eq_some_iff.mp hlast
      rw [hparts, List.dropLast_concat] at h
      obtain ⟨t, hw, h⟩ := bind_eq_ok_iff.mp h
      cases t with
      | nil => cases h
      | cons n around =>
        obtain ⟨⟨⟩, hn, h⟩ := bind_eq_ok_iff.mp h
        cases h
        exact ⟨parts, around, hparts, hw, requireDirectory_eq_ok_iff.mp hn⟩
    · cases h
  · rintro ⟨parts, around, hparts, hw, hd⟩
    unfold entryOf
    rw [hparts, List.getLast?_concat, List.dropLast_concat]
    exact bind_eq_ok_iff.mpr ⟨_, hw, bind_eq_ok_iff.mpr
      ⟨(), requireDirectory_eq_ok_iff.mpr hd, rfl⟩⟩

/-! ### What is read -/

/-- The octets of the file at a place, unless the actor may not read it or it is no file. -/
def bytesAt (fs : FileSystem) (actor : Actor) : Trail → Except OsError ByteArray
  | [] => .error .isDirectory
  | n :: _ =>
    match fs.inode? n with
    | none => .error .notFound
    | some i =>
      if ! i.permits actor .read then .error .accessDenied
      else
        match i.content with
        | .file bytes => .ok bytes
        | _ => .error .isDirectory

/-- A path is resolved, and the file there is read. -/
theorem readBytes_eq (actor : Actor) (path : String) :
    fs.readBytes actor path = fs.resolve actor true path >>= fs.bytesAt actor := by
  unfold readBytes
  congr 1

/-- What is read at a place depends on what stands there, not on the directories around it. -/
theorem bytesAt_congr {fs' : FileSystem} {n m : Nat} (h : fs.inode? n = fs'.inode? m)
    (u v : Trail) : fs.bytesAt actor (n :: u) = fs'.bytesAt actor (m :: v) := by
  simp only [bytesAt, h]

/-- A path can be read exactly if it leads to a file that the actor may read. -/
theorem readBytes_eq_ok_iff {bytes : ByteArray} :
    fs.readBytes actor path = .ok bytes ↔
      ∃ n u mode owner, fs.resolve actor true path = .ok (n :: u) ∧
        fs.inode? n = some ⟨mode, owner, .file bytes⟩ ∧
        Inode.permits ⟨mode, owner, .file bytes⟩ actor .read = true := by
  rw [readBytes_eq]
  constructor
  · intro h
    obtain ⟨t, hr, h⟩ := bind_eq_ok_iff.mp h
    cases t with
    | nil => cases h
    | cons n u =>
      -- something must be there, permit the reading and be a file
      simp only [bytesAt] at h
      split at h
      · cases h
      · next i hi =>
        split at h
        · cases h
        · next hp =>
          obtain ⟨mode, owner, content⟩ := i
          cases content with
          | file octets =>
            cases h
            exact ⟨n, u, mode, owner, hr, hi, by simpa using hp⟩
          | directory entries => cases h
          | link target => cases h
  · rintro ⟨n, u, mode, owner, hr, hi, hp⟩
    refine bind_eq_ok_iff.mpr ⟨n :: u, hr, ?_⟩
    simp only [bytesAt, hi, hp]
    rfl

/-- Octets are the text whose encoding they are, and no other text. -/
theorem fromUTF8_eq_some_iff {bytes : ByteArray} {text : String} :
    String.fromUTF8? bytes = some text ↔ bytes = text.toUTF8 := by
  unfold String.fromUTF8?
  constructor
  · intro h
    split at h
    · cases h; rfl
    · cases h
  · rintro rfl
    exact dif_pos text.isValidUTF8

/-- The text of a path can be read exactly if its octets can, these encode a text, and there is
    no null character in the path. -/
theorem readText_eq_ok_iff {text : String} :
    fs.readText actor path = .ok text ↔
      path.toList.contains '\x00' = false ∧ fs.readBytes actor path = .ok text.toUTF8 := by
  unfold readText
  by_cases hnull : path.toList.contains '\x00' = true
  · rw [if_pos hnull, hnull]
    simp [throw, throwThe, MonadExceptOf.throw]
  rw [if_neg hnull, Bool.eq_false_iff.mpr hnull, bind_eq_ok_iff]
  simp only [mapError_eq_ok_iff]
  constructor
  · rintro ⟨bytes, hbytes, h⟩
    split at h
    · next htext =>
      cases h
      rw [hbytes, fromUTF8_eq_some_iff.mp htext]
      exact ⟨trivial, rfl⟩
    · cases h
  · rintro ⟨-, hbytes⟩
    exact ⟨_, hbytes, by rw [fromUTF8_eq_some_iff.mpr rfl]; rfl⟩

/-- A path that leads nowhere cannot be read. -/
theorem readText_eq_error {e : OsError} (hnull : path.toList.contains '\x00' = false)
    (hr : fs.resolve actor true path = .error e) : fs.readText actor path = .error (.os e) := by
  rw [readText, hnull, if_neg Bool.false_ne_true, readBytes_eq, hr]
  rfl

/-- A text is read as before if the octets are, with the same change of an error at most. -/
theorem readText_kept {fs' : FileSystem} {limit beyond : OsError}
    (h : Kept limit beyond (fs.readBytes actor path) (fs'.readBytes actor path)) :
    Kept (.os limit) (.os beyond) (fs.readText actor path) (fs'.readText actor path) := by
  unfold readText
  split
  · exact .same
  · exact (h.mapError ReadFault.os).bind fun _ _ => .same

/-- The superuser reads what anyone reads, since no permission is asked of it. -/
theorem readText_superuser {text : String} (h : fs.readText actor path = .ok text) :
    fs.readText .superuser path = .ok text := by
  obtain ⟨hnull, hbytes⟩ := readText_eq_ok_iff.mp h
  obtain ⟨n, u, mode, owner, hr, hi, -⟩ := readBytes_eq_ok_iff.mp hbytes
  exact readText_eq_ok_iff.mpr
    ⟨hnull, readBytes_eq_ok_iff.mpr ⟨n, u, mode, owner, resolve_superuser hr, hi, rfl⟩⟩

/-- A path that leads to a file names it, whoever is led. -/
theorem names_of_resolve {n : Nat} {u : Trail} (h : fs.resolve actor true path = .ok (n :: u))
    (hn : (fs.file? n).isSome) : fs.Names path n := by
  obtain ⟨-, -, hw⟩ := resolve_eq_ok_iff.mp h
  exact ⟨hn, maxLinks, u, walk_superuser hw⟩

/-- A path that can be read names a file, the one under the number that it leads to. -/
theorem names_of_readText {text : String} (h : fs.readText actor path = .ok text) :
    ∃ n u, fs.resolve actor true path = .ok (n :: u) ∧ fs.Names path n := by
  obtain ⟨-, hbytes⟩ := readText_eq_ok_iff.mp h
  obtain ⟨n, u, mode, owner, hr, hi, -⟩ := readBytes_eq_ok_iff.mp hbytes
  have hn : (fs.file? n).isSome := file_isSome_iff.mpr ⟨mode, owner, _, hi⟩
  exact ⟨n, u, hr, names_of_resolve hr hn⟩

end SchemaEmbed.FileSystem
