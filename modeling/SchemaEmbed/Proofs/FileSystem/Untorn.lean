import SchemaEmbed.Proofs.FileSystem.Stages

namespace SchemaEmbed.FileSystem

/-!
# What is read between the calls of a write

A reader that comes at any moment of a replacement, or after it was broken off, should find the old
text or the new one, whole, and with the permissions that the file had. Every stage of a
replacement is known from its calls; what is read there is found here:

* `walk_beside` — a new entry beside the others is not met by any way that leads somewhere;
* `modeAt` — the mode of what a path leads to;
* `OnlyEntry` / `OnlyFile` — what a replacement and a write in place change, and what they keep;
* `writeInPlace_settles` / `writeAtomic_settles` — **after a write** the path reads as written, and
  has the mode it had;
* `Calls.untorn` — **at every stage of a replacement** the path reads as before, or as written if
  all calls are done, and has the mode it had.

The path may be a symbolic link, and the temporary file may stand in a directory through which it
goes. All that matters is that its name was not taken.
-/

variable {fs fs' : FileSystem} {actor who owner : Actor} {path : String} {bytes : ByteArray}
  {d mode : Nat} {name : String}

/-! ### Beside the others

A temporary file is an entry under a name that was not taken. A walk that arrived before did not
look for that name with success, so it takes the same way still.
-/

/-- The mode of what a path leads to, if anything is known of it. -/
def modeAt (fs : FileSystem) (actor : Actor) (path : String) : Except OsError (Option Nat) :=
  (fs.metadata actor path).map (Option.map Inode.mode)

/-- A path that leads to something has the mode of that. -/
theorem modeAt_of_resolve {n : Nat} {u : Trail} {i : Inode}
    (hr : fs.resolve actor true path = .ok (n :: u)) (hi : fs.inode? n = some i) :
    fs.modeAt actor path = .ok (some i.mode) := by
  rw [modeAt, metadata, hr]
  show Except.ok (Option.map Inode.mode (fs.inode? n)) = _
  rw [hi, Option.map_some]

/-- A file stands where it did, with its mode and its octets, after an entry was made to lead
    elsewhere. -/
theorem inode_replaceEntry_of_file {n mode' : Nat} {owner' : Actor} {old : ByteArray}
    (hi : fs.inode? n = some ⟨mode', owner', .file old⟩) :
    (fs.replaceEntry d name mode owner bytes).inode? n = some ⟨mode', owner', .file old⟩ := by
  rw [inode_replaceEntry_of_lt (lt_length_of_inode hi), modifyEntries, inode_modify, hi]
  split <;> rfl

section

variable (tree : fs.IsTree) (hd : (fs.entries? d).isSome) (hnew : fs.entryIn? d name = none)

include tree hd hnew

/-- **Beside the others** a new entry is not met by any way that leads somewhere. -/
theorem walk_beside {k : Nat} {t u : Trail} {parts : List Part} (ht : fs.IsTrail t)
    (h : fs.walk who true k t parts = .ok u) :
    (fs.replaceEntry d name mode owner bytes).walk who true k t parts = .ok u := by
  have hhead {t : Trail} (ht : fs.IsTrail t) : ∀ m ∈ t.head?, m < fs.inodes.length := by
    intro m hm
    cases t with
    | nil => cases hm
    | cons m' r => cases hm; exact ht.lt_length tree
  -- what was found is not the new entry, and stands where it did
  have hlook {t : Trail} {s : String} {m : Nat} (hs : fs.lookUp who t s = .ok m) :
      (fs.replaceEntry d name mode owner bytes).lookUp who t s = .ok m
        ∧ (fs.replaceEntry d name mode owner bytes).link? m = fs.link? m := by
    obtain ⟨e, r, i, rfl, hi, hp, hlong, he⟩ := lookUp_eq_ok_iff.mp hs
    refine ⟨?_, link_replaceEntry_of_lt (tree.closed he)⟩
    obtain ⟨mode', owner', entries, hi'⟩ := entries_isSome_iff.mp (entries_of_entry he)
    obtain rfl := Option.some.inj (hi'.symm.trans hi)
    refine lookUp_eq_ok_iff.mpr ⟨e, r, _, rfl, inode_replaceEntry_directory hi rfl, hp, hlong, ?_⟩
    rw [entry_replaceEntry hd, if_neg, he]
    rintro ⟨rfl, rfl⟩
    rw [hnew] at he
    cases he
  induction k, t, parts using fs.walk_induction who with
  | nil k t => rwa [walk_nil] at h ⊢
  | stuck k t p rest e hp => rw [walk_stuck hp] at h; cases h
  | here k t rest hdir ih =>
    rw [walk_here hdir] at h
    rw [walk_here ((requireDirectory_replaceEntry (hhead ht)).trans hdir)]
    exact ih ht h
  | up k t rest hdir ih =>
    rw [walk_up hdir] at h
    rw [walk_up ((requireDirectory_replaceEntry (hhead ht)).trans hdir)]
    exact ih ht.tail h
  | plain k t s rest m hs hm ih =>
    rw [walk_plain hs hm] at h
    rw [walk_plain (hlook hs).1 ((hlook hs).2.trans hm)]
    exact ih (ht.lookUp hs) h
  | limit t s rest m target hs hm => rw [walk_limit hs hm] at h; cases h
  | link k t s rest m target hs hm ih =>
    rw [walk_link hs hm] at h
    rw [walk_link (hlook hs).1 ((hlook hs).2.trans hm)]
    exact ih (ht.linkBase target) h

/-- With a new entry beside the others, a path to a file reads as before and has the mode that it
    had. -/
theorem reads_beside {old : ByteArray} (hold : fs.readBytes who path = .ok old) :
    (fs.replaceEntry d name mode owner bytes).readBytes who path = .ok old
      ∧ (fs.replaceEntry d name mode owner bytes).modeAt who path = fs.modeAt who path := by
  obtain ⟨n, u, mode', owner', hr, hi, hp⟩ := readBytes_eq_ok_iff.mp hold
  obtain ⟨hempty, hlong, hw⟩ := resolve_eq_ok_iff.mp hr
  have hr' : (fs.replaceEntry d name mode owner bytes).resolve who true path = .ok (n :: u) :=
    resolve_eq_ok_iff.mpr ⟨hempty, hlong, walk_beside tree hd hnew (isTrail_base path) hw⟩
  constructor
  · exact readBytes_eq_ok_iff.mpr ⟨n, u, mode', owner', hr', inode_replaceEntry_of_file hi, hp⟩
  · rw [modeAt_of_resolve hr' (inode_replaceEntry_of_file hi), modeAt_of_resolve hr hi]

end

/-! ### After a write -/

/-- Whether one entry leads to a new file, and nothing else has changed: neither the other entries
    nor the files, links, modes and owners that were there. -/
structure OnlyEntry (fs fs' : FileSystem) (d : Nat) (name : String) (new : Inode) : Prop where
  length : fs'.inodes.length = fs.inodes.length + 1
  new : fs'.inode? fs.inodes.length = some new
  entry : ∀ e s, fs'.entryIn? e s
    = if d = e ∧ name = s then some fs.inodes.length else fs.entryIn? e s
  file : ∀ m < fs.inodes.length, fs'.file? m = fs.file? m
  link : ∀ m < fs.inodes.length, fs'.link? m = fs.link? m
  mode : ∀ m < fs.inodes.length,
    (fs'.inode? m).map (fun i => (i.mode, i.owner)) = (fs.inode? m).map fun i => (i.mode, i.owner)

/-- Whether one file holds other octets, and nothing else has changed. -/
def OnlyFile (fs fs' : FileSystem) (n : Nat) (bytes : ByteArray) : Prop :=
  ∀ m, fs'.inode? m
    = (fs.inode? m).map fun i => if n = m then { i with content := .file bytes } else i

/-- A replacement changes one entry and adds one file. -/
theorem onlyEntry_replaceEntry (hd : (fs.entries? d).isSome) :
    OnlyEntry fs (fs.replaceEntry d name mode owner bytes) d name ⟨mode, owner, .file bytes⟩ where
  length := by
    rw [replaceEntry, length_modifyEntries]
    simp [add]
  new := inode_replaceEntry_length (lt_length_of_entries hd)
  entry := entry_replaceEntry hd
  file _ hm := file_replaceEntry_of_lt hm
  link _ hm := link_replaceEntry_of_lt hm
  mode m hm := by
    rw [inode_replaceEntry_of_lt hm, modifyEntries, inode_modify]
    split
    · rcases fs.inode? m with _ | ⟨mode, owner, file | entries | target⟩ <;> rfl
    · rfl

/-- A write in place changes the octets of one file. -/
theorem onlyFile_setBytes (n : Nat) : OnlyFile fs (fs.setBytes n bytes) n bytes := by
  intro m
  rw [setBytes, inode_modify]
  split
  · rfl
  · rw [Option.map_id']

/-- What the superuser finds at a path after a write: what was written, with the mode that was
    there. -/
def HasBytes (fs fs' : FileSystem) (path : String) (bytes : ByteArray) : Prop :=
  fs'.readBytes .superuser path = .ok bytes
    ∧ fs'.modeAt .superuser path = fs.modeAt .superuser path

/-- **A write in place** changes only the file that the path leads to, and the path reads as
    written. -/
theorem writeInPlace_settles (h : fs.writeInPlace actor path bytes = .ok fs') :
    HasBytes fs fs' path bytes
      ∧ ∃ n u, fs.resolve actor true path = .ok (n :: u) ∧ OnlyFile fs fs' n bytes := by
  obtain ⟨n, u, mode, owner, old, hr, hi, -, rfl⟩ := writeInPlace_eq_ok_iff.mp h
  have hr' : (fs.setBytes n bytes).resolve .superuser true path = .ok (n :: u) := by
    rw [resolve_setBytes hi]
    exact resolve_superuser hr
  have hi' : (fs.setBytes n bytes).inode? n = some ⟨mode, owner, .file bytes⟩ :=
    (inode_setBytes hi n).trans (if_pos rfl)
  refine ⟨⟨?_, ?_⟩, n, u, hr, onlyFile_setBytes n⟩
  · exact readBytes_eq_ok_iff.mpr ⟨n, u, mode, owner, hr', hi', rfl⟩
  · rw [modeAt_of_resolve hr' hi', modeAt_of_resolve (resolve_superuser hr) hi]

/-- **A replacement** changes only the entry that the path ends in, and the path leads to the new
    file if it led to one before. -/
theorem writeAtomic_settles (tree : fs.IsTree) (h : fs.writeAtomic actor path bytes = .ok fs') :
    (∀ old, fs.readBytes .superuser path = .ok old → HasBytes fs fs' path bytes)
      ∧ ∃ d name mode, fs.entryOf actor path = .ok (d, name)
        ∧ OnlyEntry fs fs' d name ⟨mode, actor, .file bytes⟩ := by
  obtain ⟨n, u, i, d, name, hr, hi, he, hmay, rfl⟩ := writeAtomic_eq_ok_iff.mp h
  obtain ⟨-, -, -, -, hd⟩ := entryOf_eq_ok_iff.mp he
  refine ⟨fun old hold => ?_, d, name, i.mode, he, onlyEntry_replaceEntry hd⟩
  -- the writer and the superuser are led to the same file
  obtain ⟨n', u', mode', owner', hr', hi', -⟩ := readBytes_eq_ok_iff.mp hold
  obtain ⟨rfl, rfl⟩ := List.cons.inj (Except.ok.inj ((resolve_superuser hr).symm.trans hr'))
  have hfile : (fs.file? n).isSome := file_isSome_iff.mpr ⟨mode', owner', old, hi'⟩
  obtain ⟨parts, around, hparts, hway, hleads⟩ := leadsToFile_of_entryOf hr hfile he
  have hnew : (fs.replaceEntry d name i.mode actor bytes).resolve .superuser true path
      = .ok (fs.inodes.length :: d :: around) :=
    resolve_replaceEntry tree hleads.superuser hr' hparts (walk_superuser hway)
  have hinode : (fs.replaceEntry d name i.mode actor bytes).inode? fs.inodes.length
      = some ⟨i.mode, actor, .file bytes⟩ := inode_replaceEntry_length (lt_length_of_entries hd)
  constructor
  · exact readBytes_eq_ok_iff.mpr ⟨_, _, _, _, hnew, hinode, rfl⟩
  · rw [modeAt_of_resolve hnew hinode, modeAt_of_resolve hr' hi]

/-! ### At every stage

Up to the last call the temporary file stands beside the others or nowhere. After it the write has
succeeded as the function does.
-/

/-- **At every stage of a replacement**, with or without faults, a path to a file reads as
    before, or as written if all calls are done; and its mode is the one it had. -/
theorem Calls.untorn {faults : Bool} {old : ByteArray} {s : Stage} (tree : fs.IsTree)
    (hold : fs.readBytes .superuser path = .ok old)
    (h : Calls faults actor path bytes .atomic ⟨.start, fs⟩ s) :
    (s.phase ≠ .done → HasBytes fs s.files path old)
      ∧ (s.phase = .done → HasBytes fs s.files path bytes) := by
  have hreached := h.reached tree
  obtain ⟨phase, fs'⟩ := s
  -- before the last call there is at most the temporary file beside the others
  cases phase with
  | start =>
    obtain rfl := hreached
    exact ⟨fun _ => ⟨hold, rfl⟩, nofun⟩
  | overwriting n count => cases hreached.1
  | known i =>
    obtain ⟨-, -, rfl⟩ := hreached
    exact ⟨fun _ => ⟨hold, rfl⟩, nofun⟩
  | filling w count =>
    obtain ⟨-, hopens, -, rfl⟩ := hreached
    exact ⟨fun _ => reads_beside tree hopens.fits.directory hopens.fits.fresh hold, nofun⟩
  | equipped w =>
    obtain ⟨-, hopens, rfl⟩ := hreached
    exact ⟨fun _ => reads_beside tree hopens.fits.directory hopens.fits.fresh hold, nofun⟩
  | done =>
    refine ⟨fun hne => absurd rfl hne, fun _ => ?_⟩
    exact (writeAtomic_settles tree hreached).1 old hold
  | failed f =>
    obtain ⟨rfl, -⟩ := hreached
    exact ⟨fun _ => ⟨hold, rfl⟩, nofun⟩

end SchemaEmbed.FileSystem
