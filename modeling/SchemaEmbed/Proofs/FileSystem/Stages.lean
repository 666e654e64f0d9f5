import Mathlib.Logic.Relation
import SchemaEmbed.Proofs.FileSystem.Overwrite

namespace SchemaEmbed.FileSystem

/-!
# A write, call by call

A write is a function of the tree. Behind it are calls of the system: each of them meets the tree
that the calls before it left, and can fail there, so that what they did has to be undone. The
function asks everything beforehand and then carries out a plan; whether this is what the calls
come to is a question, and it is answered here:

* `Stage` — how far a write is, and the tree at that point;
* `Call` — what one call does; if it fails, the temporary file goes away again;
* `planAtomic_eq` / `writeInPlace_eq` — the function asks beforehand all that the calls ask one by
  one;
* `Stage.Reached` — what a stage has to do with the tree at the start, which each call keeps
  (`Call.reached`), so that it holds of every stage (`Calls.reached`);
* `exists_final` — some calls in a row bring every write to an end.

The relation has a parameter for faults. Without them a call fails only for what is in the tree,
and then the calls and the function agree on every outcome (`endsAt_done`, `endsAt_failed`). With
them any call of a replacement may fail, as on a full disk, and octets may be written a few at a
time in either case, which is what a reader in between would see.
-/

variable {fs fs' : FileSystem} {actor owner : Actor} {path : String} {bytes : ByteArray}
  {d mode : Nat} {name : String}

/-! ### The calls

The calls of a write in place are opening, writing and closing. Those of a replacement ask for the
metadata of the old file, make a temporary one, write it, change its mode and rename it.
-/

/-- What is known of what a path leads to; of a path that leads out of the tree nothing is. -/
def metadata (fs : FileSystem) (actor : Actor) (path : String) : Except OsError (Option Inode) :=
  (fs.resolve actor true path).map fun place => place.head? >>= fs.inode?

/-- The file that a path leads to, to be written in place. -/
def openExisting (fs : FileSystem) (actor : Actor) (path : String) : Except OsError Nat := do
  match ← fs.resolve actor true path with
  | [] => throw .isDirectory
  | n :: _ =>
    match fs.inode? n with
    | some ⟨mode, owner, .file old⟩ =>
      if Inode.permits ⟨mode, owner, .file old⟩ actor .write then return n
      else throw .accessDenied
    | some _ => throw .isDirectory
    | none => throw .notFound

/-- The temporary file for a replacement, as far as it can be made. -/
def openTemporary (fs : FileSystem) (actor : Actor) (path : String) (bytes : ByteArray)
    (old : Option Inode) : Except WriteFault AtomicWrite := do
  let (directory, name) ← (fs.entryOf actor path).mapError fun e => ⟨e, none⟩
  match old, fs.inode? directory with
  | some old, some ⟨mode, owner, .directory entries⟩ =>
    let parent : Inode := ⟨mode, owner, .directory entries⟩
    let temporary := temporaryName (Entries.keys entries)
    if ! (parent.permits actor .write && parent.permits actor .search) then
      throw ⟨.accessDenied, some (siblingPath path temporary)⟩
    else return ⟨directory, name, temporary, actor, old.mode, bytes⟩
  | _, _ => throw ⟨.notFound, none⟩

namespace AtomicWrite

/-- Writes the first octets of the temporary file. -/
def writePart (w : AtomicWrite) (count : Nat) : FileSystem → FileSystem :=
  w.onTemporary fun fs n => fs.setBytes n (w.bytes.extract 0 count)

/-- Why the temporary file cannot take the place of the entry, if it cannot. -/
def renameFault? (w : AtomicWrite) (fs : FileSystem) : Option WriteFault :=
  match fs.inode? w.directory with
  | some ⟨mode, owner, .directory entries⟩ =>
    match Entries.find? w.name entries >>= fs.inode? with
    | none => some ⟨.notFound, none⟩
    | some ⟨_, _, .directory _⟩ => some ⟨.isDirectory, none⟩
    | some entry =>
      if ! mayReplace w.actor ⟨mode, owner, .directory entries⟩ entry then
        some ⟨.notPermitted, none⟩
      else none
  | _ => some ⟨.notFound, none⟩

/-- Removes the temporary file; its number, which is the last one, is free again. -/
def discard (w : AtomicWrite) (fs : FileSystem) : FileSystem :=
  (⟨fs.inodes.dropLast⟩ : FileSystem).modifyEntries w.directory fun entries =>
    entries.filter fun e => e.1 != w.temporary

end AtomicWrite

/-- How far a write is. -/
inductive Phase where
  | start
  /-- The file is open and empty, and the first octets are written. -/
  | overwriting (n count : Nat)
  /-- The metadata of the old file are known. -/
  | known (old : Option Inode)
  /-- The temporary file is open, and the first octets are written. -/
  | filling (w : AtomicWrite) (count : Nat)
  /-- The temporary file has the mode of the old one. -/
  | equipped (w : AtomicWrite)
  | done
  | failed (f : WriteFault)

/-- Whether no call follows. -/
def Phase.IsFinal : Phase → Prop
  | .done | .failed _ => True
  | _ => False

/-- How far a write is, and the tree at that point. -/
structure Stage where
  phase : Phase
  files : FileSystem

/-- **One call** on the way of a write.  With `faults` a call of an atomic write can also fail for
    a reason that is not in the tree; once the temporary file is there, it is removed then. -/
inductive Call (faults : Bool) (actor : Actor) (path : String) (bytes : ByteArray) :
    WriteMode → Stage → Stage → Prop
  | opened {fs n} (h : fs.openExisting actor path = .ok n) :
    Call faults actor path bytes .inPlace ⟨.start, fs⟩
      ⟨.overwriting n 0, fs.setBytes n ByteArray.empty⟩
  | unopened {fs e} (h : fs.openExisting actor path = .error e) :
    Call faults actor path bytes .inPlace ⟨.start, fs⟩ ⟨.failed ⟨e, none⟩, fs⟩
  | overwrote {fs n count more} (h : count < more) (hmore : more ≤ bytes.size) :
    Call faults actor path bytes .inPlace ⟨.overwriting n count, fs⟩
      ⟨.overwriting n more, fs.setBytes n (bytes.extract 0 more)⟩
  | closed {fs n} :
    Call faults actor path bytes .inPlace ⟨.overwriting n bytes.size, fs⟩ ⟨.done, fs⟩
  | asked {fs old} (h : fs.metadata actor path = .ok old) :
    Call faults actor path bytes .atomic ⟨.start, fs⟩ ⟨.known old, fs⟩
  | unknown {fs e} (h : fs.metadata actor path = .error e) :
    Call faults actor path bytes .atomic ⟨.start, fs⟩ ⟨.failed ⟨e, none⟩, fs⟩
  | created {fs old w} (h : fs.openTemporary actor path bytes old = .ok w) :
    Call faults actor path bytes .atomic ⟨.known old, fs⟩ ⟨.filling w 0, w.createTemporary fs⟩
  | uncreated {fs old f} (h : fs.openTemporary actor path bytes old = .error f) :
    Call faults actor path bytes .atomic ⟨.known old, fs⟩ ⟨.failed f, fs⟩
  | wrote {fs w count more} (h : count < more) (hmore : more ≤ bytes.size) :
    Call faults actor path bytes .atomic ⟨.filling w count, fs⟩
      ⟨.filling w more, w.writePart more fs⟩
  | changedMode {fs w} :
    Call faults actor path bytes .atomic ⟨.filling w bytes.size, fs⟩ ⟨.equipped w, w.copyMode fs⟩
  | renamed {fs w} (h : w.renameFault? fs = none) :
    Call faults actor path bytes .atomic ⟨.equipped w, fs⟩ ⟨.done, w.replace fs⟩
  | unrenamed {fs w f} (h : w.renameFault? fs = some f) :
    Call faults actor path bytes .atomic ⟨.equipped w, fs⟩ ⟨.failed f, w.discard fs⟩
  | brokeEarly {fs phase f} (hfaults : faults = true)
    (h : phase = .start ∨ ∃ old, phase = .known old) :
    Call faults actor path bytes .atomic ⟨phase, fs⟩ ⟨.failed f, fs⟩
  | broke {fs phase w f} (hfaults : faults = true)
    (h : (∃ count, phase = .filling w count) ∨ phase = .equipped w) :
    Call faults actor path bytes .atomic ⟨phase, fs⟩ ⟨.failed f, w.discard fs⟩

/-- Any number of calls in a row. -/
abbrev Calls (faults : Bool) (actor : Actor) (path : String) (bytes : ByteArray)
    (mode : WriteMode) : Stage → Stage → Prop :=
  Relation.ReflTransGen (Call faults actor path bytes mode)

/-- Writes octets to the file at a path, in either way; a fault of writing in place names no
    temporary file. -/
def writeBytes (fs : FileSystem) (actor : Actor) (mode : WriteMode) (path : String)
    (bytes : ByteArray) : Except WriteFault FileSystem :=
  match mode with
  | .inPlace => (fs.writeInPlace actor path bytes).mapError fun e => ⟨e, none⟩
  | .atomic => fs.writeAtomic actor path bytes

/-- A text is written as the octets that encode it. -/
theorem writeText_eq (actor : Actor) (mode : WriteMode) (path text : String) :
    fs.writeText actor mode path text = fs.writeBytes actor mode path text.toUTF8 := by
  cases mode <;> rfl

/-! ### The function and the calls

The plan of a replacement is split into what its calls ask one after the other. Each part is asked
of the tree at the start here; that it is answered in the same way later is shown below.
-/

/-- **A write in place** asks what opening the file asks, and nothing after that. -/
theorem writeInPlace_eq :
    fs.writeInPlace actor path bytes
      = (fs.openExisting actor path).map fun n => fs.setBytes n bytes := by
  unfold writeInPlace openExisting
  rcases fs.resolve actor true path with e | _ | ⟨n, u⟩
  · rfl
  · rfl
  · simp only [ok_bind]
    rcases fs.inode? n with _ | ⟨mode, owner, file | entries | target⟩
    case some.file =>
      dsimp only
      split <;> rfl
    all_goals rfl

/-- **The plan of a replacement** asks what the calls ask: for the metadata, for the temporary
    file, and whether this may take the place of the entry. -/
theorem planAtomic_eq :
    fs.planAtomic actor path bytes
      = (fs.metadata actor path).mapError (fun e => ⟨e, none⟩) >>= fun old =>
        fs.openTemporary actor path bytes old >>= fun w =>
        match w.renameFault? fs with
        | some f => .error f
        | none => .ok w := by
  unfold planAtomic metadata openTemporary
  rcases fs.resolve actor true path with e | place
  · rfl
  · rcases fs.entryOf actor path with e | ⟨d, name⟩
    · rfl
    · simp only [mapError_ok, ok_bind, Except.map]
      rcases place.head? >>= fs.inode? with _ | old
      · rfl
      · rcases hd : fs.inode? d with _ | ⟨mode, owner, file | entries | target⟩
        case some.directory =>
          simp only [AtomicWrite.renameFault?]
          split
          · rfl
          · simp only [hd, pure_bind]
            rcases Entries.find? name entries >>= fs.inode? with
              _ | ⟨mode', owner', file | entries' | target⟩
            case some.directory => rfl
            case none => rfl
            all_goals
              dsimp only
              split <;> rfl
        all_goals rfl

/-! ### The temporary file

While the temporary file is there, it is one entry more in the directory. What the last call asks,
whether the entry may be replaced, does not depend on it.
-/

/-- Whether the temporary file of a replacement can be made. -/
def Opens (fs : FileSystem) (actor : Actor) (path : String) (bytes : ByteArray)
    (w : AtomicWrite) : Prop :=
  ∃ old, fs.metadata actor path = .ok old ∧ fs.openTemporary actor path bytes old = .ok w

/-- What a plan with a temporary file has to do with the tree. -/
structure Fits (fs : FileSystem) (actor : Actor) (path : String) (bytes : ByteArray)
    (w : AtomicWrite) : Prop where
  /-- The path leads somewhere, and the mode is the one there. -/
  place : ∃ n u old, fs.resolve actor true path = .ok (n :: u) ∧ fs.inode? n = some old ∧
    w.mode = old.mode
  entry : fs.entryOf actor path = .ok (w.directory, w.name)
  directory : (fs.entries? w.directory).isSome
  /-- The name of the temporary file is new. -/
  fresh : fs.entryIn? w.directory w.temporary = none
  actor_eq : w.actor = actor
  bytes_eq : w.bytes = bytes

/-- A path that leads somewhere ends in an entry that is there. -/
theorem entry_of_resolve {t : Trail} (hr : fs.resolve actor true path = .ok t)
    (he : fs.entryOf actor path = .ok (d, name)) : ∃ m, fs.entryIn? d name = some m := by
  obtain ⟨-, -, hw⟩ := resolve_eq_ok_iff.mp hr
  obtain ⟨parts, around, hparts, hd, -⟩ := entryOf_eq_ok_iff.mp he
  obtain ⟨j, hj, hwalk⟩ := walk_append hd
  have hlast : fs.walk actor true (maxLinks - j) (d :: around) [.name name] = .ok t := by
    rw [← hwalk, Nat.sub_add_cancel hj, ← hparts, hw]
  cases hs : fs.lookUp actor (d :: around) name with
  | ok m => exact ⟨m, entry_of_lookUp hs⟩
  | error e =>
    have hfault : fs.partFault? actor (d :: around) (.name name) = some e := by
      simp only [partFault?, hs]
    rw [walk_stuck hfault] at hlast
    cases hlast

/-- A temporary file that can be made fits the tree: its name is new, and the plan has the
    directory, the entry, the mode and the octets that it should. -/
theorem Opens.fits {w : AtomicWrite} (h : fs.Opens actor path bytes w) :
    fs.Fits actor path bytes w := by
  obtain ⟨old?, hold, hw⟩ := h
  obtain ⟨place, hr, hplace⟩ := map_eq_ok_iff.mp hold
  obtain ⟨⟨d, name⟩, he, hw⟩ := bind_eq_ok_iff.mp hw
  rw [mapError_eq_ok_iff] at he
  dsimp only at hw
  split at hw
  · next old mode owner entries hd hsome =>
    split at hw
    · cases hw
    · cases hw
      obtain ⟨n, hn, hi⟩ := Option.bind_eq_some_iff.mp hplace
      obtain ⟨u, rfl⟩ := List.head?_eq_some_iff.mp hn
      have hentries : fs.entries? d = some entries := by simp only [entries?, hd]
      refine ⟨⟨n, u, old, hr, hi, rfl⟩, he, by rw [hentries]; rfl, ?_, rfl, rfl⟩
      rw [entryIn?, hentries, Option.bind_some, Entries.find_eq_none_iff]
      exact temporaryName_not_mem _
  · cases hw

/-- With the temporary file written in part, its entry leads to a new file with the first octets. -/
theorem AtomicWrite.writePart_replaceEntry (w : AtomicWrite) (count : Nat)
    (hd : (fs.entries? w.directory).isSome) :
    w.writePart count (fs.replaceEntry w.directory w.temporary mode owner bytes)
      = fs.replaceEntry w.directory w.temporary mode owner (w.bytes.extract 0 count) := by
  rw [AtomicWrite.writePart, AtomicWrite.onTemporary, w.temporaryNumber_replaceEntry hd]
  exact modify_replaceEntry hd _ rfl

/-- **A temporary file that is removed** was never there: its entry goes away, and its number is
    free again. -/
theorem AtomicWrite.discard_replaceEntry (w : AtomicWrite)
    (hnew : fs.entryIn? w.directory w.temporary = none) :
    w.discard (fs.replaceEntry w.directory w.temporary mode owner bytes) = fs := by
  have hlength : (fs.replaceEntry w.directory w.temporary mode owner bytes).inodes.length
      = fs.inodes.length + 1 := by
    rw [replaceEntry, length_modifyEntries]
    simp [add]
  -- what is left of the numbers, before the entry is removed
  have hleft : (⟨(fs.replaceEntry w.directory w.temporary mode owner bytes).inodes.dropLast⟩ :
      FileSystem) = fs.modifyEntries w.directory (Entries.put w.temporary fs.inodes.length) := by
    refine ext_inode fun n => ?_
    show (List.dropLast _)[n]? = _
    rw [List.getElem?_dropLast, hlength, Nat.add_sub_cancel]
    by_cases hn : n < fs.inodes.length
    · rw [if_pos hn]
      exact inode_replaceEntry_of_lt hn
    · rw [if_neg hn]
      refine (List.getElem?_eq_none ?_).symm
      rw [length_modifyEntries]
      exact Nat.le_of_not_lt hn
  rw [AtomicWrite.discard, hleft, modifyEntries_modifyEntries]
  refine (modifyEntries_congr fun entries' hentries' => ?_).trans (modifyEntries_id fs w.directory)
  refine filter_put ?_ _
  rw [← Entries.find_eq_none_iff]
  simpa only [entryIn?, hentries', Option.bind_some] using hnew

/-- **The temporary file beside it** does not change whether it may take the place of the entry. -/
theorem Fits.renameFault_eq {w : AtomicWrite} (tree : fs.IsTree) (h : fs.Fits actor path bytes w)
    (mode : Nat) (owner : Actor) (bytes' : ByteArray) :
    w.renameFault? (fs.replaceEntry w.directory w.temporary mode owner bytes')
      = w.renameFault? fs := by
  obtain ⟨n, u, old, hr, -, -⟩ := h.place
  obtain ⟨m, hm⟩ := entry_of_resolve hr h.entry
  have hne : w.temporary ≠ w.name := by
    intro heq
    have hfresh := h.fresh
    rw [heq, hm] at hfresh
    cases hfresh
  obtain ⟨mode', owner', entries, hd⟩ := entries_isSome_iff.mp h.directory
  have hfind : Entries.find? w.name entries = some m := by
    simpa only [entryIn?, entries?, hd, Option.bind_some] using hm
  have hinode : (fs.replaceEntry w.directory w.temporary mode owner bytes').inode? m = _ :=
    inode_replaceEntry_of_lt (tree.closed hm)
  rw [modifyEntries, inode_modify] at hinode
  simp only [AtomicWrite.renameFault?, inode_replaceEntry_directory hd rfl, hd, if_pos,
    Entries.find_put, if_neg hne, hfind, Option.bind_eq_bind, Option.bind_some, hinode]
  -- what stands there is the same, but for the entries if it is the directory itself
  by_cases hdm : w.directory = m
  · rw [if_pos hdm]
    rcases fs.inode? m with _ | ⟨mode, owner, file | entries | target⟩ <;> rfl
  · rw [if_neg hdm]
    rcases fs.inode? m with _ | ⟨mode, owner, file | entries | target⟩ <;> rfl

/-- If the temporary file can be made, then a replacement succeeds exactly if this may take the
    place of the entry. -/
theorem Opens.writeAtomic_eq {w : AtomicWrite} (h : fs.Opens actor path bytes w) :
    fs.writeAtomic actor path bytes
      = match w.renameFault? fs with
        | some f => .error f
        | none => .ok (fs.replaceEntry w.directory w.name w.mode actor bytes) := by
  have hfits := h.fits
  obtain ⟨old, hold, hw⟩ := h
  rw [writeAtomic, planAtomic_eq, hold, mapError_ok, ok_bind, hw, ok_bind]
  cases w.renameFault? fs with
  | some f => rfl
  | none =>
    show Except.ok (w.carryOut fs) = _
    rw [w.carryOut_eq hfits.directory hfits.fresh, hfits.actor_eq, hfits.bytes_eq]

/-! ### From stage to stage

The invariant says what the tree is at each stage, in terms of the tree at the start. It holds with
and without faults, except that a failure is the one which the function reports only without them.
-/

/-- What a stage has to do with the tree at the start. -/
def Stage.Reached (fs : FileSystem) (faults : Bool) (actor : Actor) (path : String)
    (bytes : ByteArray) (mode : WriteMode) (s : Stage) : Prop :=
  match s.phase with
  | .start => s.files = fs
  | .overwriting n count => mode = .inPlace ∧ fs.openExisting actor path = .ok n ∧
      count ≤ bytes.size ∧ s.files = fs.setBytes n (bytes.extract 0 count)
  | .known old => mode = .atomic ∧ fs.metadata actor path = .ok old ∧ s.files = fs
  | .filling w count => mode = .atomic ∧ fs.Opens actor path bytes w ∧ count ≤ bytes.size ∧
      s.files = fs.replaceEntry w.directory w.temporary temporaryMode actor (bytes.extract 0 count)
  | .equipped w => mode = .atomic ∧ fs.Opens actor path bytes w ∧
      s.files = fs.replaceEntry w.directory w.temporary w.mode actor bytes
  | .done => fs.writeBytes actor mode path bytes = .ok s.files
  | .failed f => s.files = fs ∧
      (faults = false → fs.writeBytes actor mode path bytes = .error f)

/-- Octets that are written over others leave nothing of them. -/
theorem setBytes_setBytes (fs : FileSystem) (n : Nat) (a b : ByteArray) :
    (fs.setBytes n a).setBytes n b = fs.setBytes n b := by
  refine ext_inode fun m => ?_
  simp only [setBytes, inode_modify]
  split
  · rw [Option.map_map]
    rfl
  · rfl

variable {faults : Bool} {wmode : WriteMode}

/-- **Each call** keeps what a stage has to do with the start. There is one case for each call,
    and each says what that call did to the tree that is known by then. -/
theorem Call.reached {s s' : Stage} (tree : fs.IsTree)
    (h : Call faults actor path bytes wmode s s')
    (hs : s.Reached fs faults actor path bytes wmode) :
    s'.Reached fs faults actor path bytes wmode := by
  have hwhole : bytes.extract 0 bytes.size = bytes := ByteArray.extract_zero_size
  have hnone : bytes.extract 0 0 = ByteArray.empty := by simp
  cases h with
  -- in place: opening empties the file, and each further call writes it from the start
  | opened h =>
    obtain rfl := hs
    exact ⟨rfl, h, Nat.zero_le _, by rw [hnone]⟩
  | unopened h =>
    obtain rfl := hs
    refine ⟨rfl, fun _ => ?_⟩
    show ((writeInPlace _ _ _ _).mapError _) = _
    rw [writeInPlace_eq, h]
    rfl
  | overwrote hlt hmore =>
    obtain ⟨-, hopen, -, rfl⟩ := hs
    exact ⟨rfl, hopen, hmore, setBytes_setBytes ..⟩
  | closed =>
    obtain ⟨-, hopen, -, hfiles⟩ := hs
    show ((writeInPlace _ _ _ _).mapError _) = _
    rw [writeInPlace_eq, hopen]
    rw [hwhole] at hfiles
    exact congrArg Except.ok hfiles.symm
  -- by a new file: up to the rename, the entry of the temporary file is all that is different
  | asked h =>
    obtain rfl := hs
    exact ⟨rfl, h, rfl⟩
  | unknown h =>
    obtain rfl := hs
    refine ⟨rfl, fun _ => ?_⟩
    show writeAtomic _ _ _ _ = _
    rw [writeAtomic, planAtomic_eq, h]
    rfl
  | created h =>
    obtain ⟨-, hold, rfl⟩ := hs
    have hopens : Opens _ actor path bytes _ := ⟨_, hold, h⟩
    refine ⟨rfl, hopens, Nat.zero_le _, ?_⟩
    rw [hnone, AtomicWrite.createTemporary_eq, hopens.fits.actor_eq]
  | uncreated h =>
    obtain ⟨-, hold, rfl⟩ := hs
    refine ⟨rfl, fun _ => ?_⟩
    show writeAtomic _ _ _ _ = _
    rw [writeAtomic, planAtomic_eq, hold, mapError_ok, ok_bind, h]
    rfl
  | wrote hlt hmore =>
    obtain ⟨-, hopens, -, rfl⟩ := hs
    refine ⟨rfl, hopens, hmore, ?_⟩
    show AtomicWrite.writePart _ _ _ = _
    rw [AtomicWrite.writePart_replaceEntry _ _ hopens.fits.directory, hopens.fits.bytes_eq]
  | changedMode =>
    obtain ⟨-, hopens, -, rfl⟩ := hs
    refine ⟨rfl, hopens, ?_⟩
    show AtomicWrite.copyMode _ _ = _
    rw [AtomicWrite.copyMode_replaceEntry _ hopens.fits.directory, hwhole]
  | @renamed fs' w h =>
    obtain ⟨-, hopens, rfl⟩ := hs
    rw [hopens.fits.renameFault_eq tree] at h
    show writeAtomic _ _ _ _ = _
    rw [hopens.writeAtomic_eq, h, w.replace_replaceEntry hopens.fits.fresh]
  | @unrenamed fs' w f h =>
    obtain ⟨-, hopens, rfl⟩ := hs
    rw [hopens.fits.renameFault_eq tree] at h
    refine ⟨w.discard_replaceEntry hopens.fits.fresh, fun _ => ?_⟩
    show writeAtomic _ _ _ _ = _
    rw [hopens.writeAtomic_eq, h]
  -- the last two calls exist with faults only, so nothing has to be said of the function
  | brokeEarly hfaults h =>
    refine ⟨?_, fun hsound => ?_⟩
    · rcases h with rfl | ⟨old, rfl⟩
      · exact hs
      · exact hs.2.2
    · rw [hfaults] at hsound
      cases hsound
  | @broke fs' phase w f hfaults h =>
    refine ⟨?_, fun hsound => ?_⟩
    · rcases h with ⟨count, rfl⟩ | rfl
      · obtain ⟨-, hopens, -, rfl⟩ := hs
        exact w.discard_replaceEntry hopens.fits.fresh
      · obtain ⟨-, hopens, rfl⟩ := hs
        exact w.discard_replaceEntry hopens.fits.fresh
    · rw [hfaults] at hsound
      cases hsound

/-- **All calls in a row** keep it, by induction on how many there are. -/
theorem Calls.reached {s : Stage} (tree : fs.IsTree)
    (h : Calls faults actor path bytes wmode ⟨.start, fs⟩ s) :
    s.Reached fs faults actor path bytes wmode := by
  induction h with
  | refl => exact rfl
  | tail _ hcall ih => exact hcall.reached tree ih

/-- A file that is open, the old one or a temporary one, can be written to its end, which may be
    its start. -/
theorem exists_written (phase : Nat → Phase)
    (h : ∀ more, 0 < more → more ≤ bytes.size →
      ∃ fs', Call faults actor path bytes wmode ⟨phase 0, fs⟩ ⟨phase more, fs'⟩) :
    ∃ fs', Calls faults actor path bytes wmode ⟨phase 0, fs⟩ ⟨phase bytes.size, fs'⟩ := by
  by_cases hsize : bytes.size = 0
  · rw [hsize]
    exact ⟨fs, .refl⟩
  · obtain ⟨fs', hcall⟩ := h bytes.size (Nat.pos_of_ne_zero hsize) (Nat.le_refl _)
    exact ⟨fs', .single hcall⟩

/-- **Some calls in a row** bring every write to an end, in each way of writing and from every
    tree. -/
theorem exists_final (fs : FileSystem) (faults : Bool) (actor : Actor) (wmode : WriteMode)
    (path : String) (bytes : ByteArray) :
    ∃ s, Calls faults actor path bytes wmode ⟨.start, fs⟩ s ∧ s.phase.IsFinal := by
  cases wmode with
  | inPlace =>
    cases hopen : fs.openExisting actor path with
    | error e => exact ⟨_, .single (.unopened hopen), trivial⟩
    | ok n =>
      obtain ⟨fs', hwritten⟩ := exists_written (.overwriting n)
        fun more hpos hmore => ⟨_, .overwrote hpos hmore⟩
      exact ⟨_, .head (.opened hopen) (hwritten.tail .closed), trivial⟩
  | atomic =>
    cases hold : fs.metadata actor path with
    | error e => exact ⟨_, .single (.unknown hold), trivial⟩
    | ok old =>
      cases hw : fs.openTemporary actor path bytes old with
      | error f => exact ⟨_, .head (.asked hold) (.single (.uncreated hw)), trivial⟩
      | ok w =>
        obtain ⟨fs', hfilled⟩ := exists_written (.filling w)
          fun more hpos hmore => ⟨_, .wrote hpos hmore⟩
        have hequipped : Calls faults actor path bytes .atomic ⟨.start, fs⟩
            ⟨.equipped w, w.copyMode fs'⟩ :=
          .head (.asked hold) (.head (.created hw) (hfilled.tail .changedMode))
        cases hrename : w.renameFault? (w.copyMode fs') with
        | none => exact ⟨_, hequipped.tail (.renamed hrename), trivial⟩
        | some f => exact ⟨_, hequipped.tail (.unrenamed hrename), trivial⟩

/-- **How a write ends** without faults: as the function says, and with the tree at the start if
    it fails. -/
theorem Calls.final {s : Stage} (tree : fs.IsTree)
    (h : Calls false actor path bytes wmode ⟨.start, fs⟩ s) (hfinal : s.phase.IsFinal) :
    (s.phase = .done ∧ fs.writeBytes actor wmode path bytes = .ok s.files)
      ∨ ∃ f, s = ⟨.failed f, fs⟩ ∧ fs.writeBytes actor wmode path bytes = .error f := by
  have hreached := h.reached tree
  obtain ⟨phase, fs'⟩ := s
  cases phase with
  | done => exact .inl ⟨rfl, hreached⟩
  | failed f =>
    obtain ⟨rfl, hwrite⟩ := hreached
    exact .inr ⟨f, rfl, hwrite rfl⟩
  | _ => exact hfinal.elim

/-- Whether a write without faults ends, whatever calls it makes, at one stage. -/
def EndsAt (fs : FileSystem) (actor : Actor) (wmode : WriteMode) (path : String)
    (bytes : ByteArray) (last : Stage) : Prop :=
  Calls false actor path bytes wmode ⟨.start, fs⟩ last ∧
    ∀ s, Calls false actor path bytes wmode ⟨.start, fs⟩ s → s.phase.IsFinal → s = last

/-- A write ends at a stage if no other one is final, because some stage is. -/
theorem endsAt_of_forall {last : Stage}
    (h : ∀ s, Calls false actor path bytes wmode ⟨.start, fs⟩ s → s.phase.IsFinal → s = last) :
    EndsAt fs actor wmode path bytes last := by
  obtain ⟨s, hs, hfinal⟩ := exists_final fs false actor wmode path bytes
  exact ⟨h s hs hfinal ▸ hs, h⟩

/-- **A write that succeeds** ends with all calls done, in the tree that the function gives. -/
theorem endsAt_done (tree : fs.IsTree) (h : fs.writeBytes actor wmode path bytes = .ok fs') :
    EndsAt fs actor wmode path bytes ⟨.done, fs'⟩ := by
  apply endsAt_of_forall
  intro s hs hfinal
  rcases hs.final tree hfinal with ⟨hphase, hwrite⟩ | ⟨f, -, hwrite⟩
  · obtain ⟨phase, files⟩ := s
    obtain rfl : phase = .done := hphase
    obtain rfl : files = fs' := Except.ok.inj (hwrite.symm.trans h)
    rfl
  · cases hwrite.symm.trans h

/-- **A write that fails** ends with that failure, in the tree at the start. -/
theorem endsAt_failed {f : WriteFault} (tree : fs.IsTree)
    (h : fs.writeBytes actor wmode path bytes = .error f) :
    EndsAt fs actor wmode path bytes ⟨.failed f, fs⟩ := by
  apply endsAt_of_forall
  intro s hs hfinal
  rcases hs.final tree hfinal with ⟨-, hwrite⟩ | ⟨g, rfl, hwrite⟩
  · cases hwrite.symm.trans h
  · rw [Except.error.inj (hwrite.symm.trans h)]

end SchemaEmbed.FileSystem
