import SchemaEmbed.Proofs.FileSystem.Replace
import SchemaEmbed.Proofs.Outcome

namespace SchemaEmbed.FileSystem

/-!
# Atomic writes, step by step

A replacement makes a temporary file, writes it, gives it the mode of the old file and renames it.
The tree after each of these steps is one entry away from the tree before the first one, and that
is how each step is described:

* `temporaryName_not_mem` — the temporary file gets a name that is not taken;
* `createTemporary_eq` / `writeTemporary_replaceEntry` / `copyMode_replaceEntry` /
  `replace_replaceEntry` — what the tree is after each step, always one entry away from the tree
  before the write;
* `carryOut_eq` — all steps together make the entry lead to a new file;
* `planAtomic_eq_ok_iff` — when a plan can be made, and which;
* `writeAtomic_eq_ok_iff` — what an atomic write is.

So nothing has to be said about trees with a temporary file in them beyond `replaceEntry`, of which
everything is known already.
-/

variable {fs : FileSystem} {actor owner : Actor} {d mode : Nat} {name temporary : String}
  {bytes : ByteArray}

/-! ### The name of the temporary file -/

/-- The candidates for the name of a temporary file are all different, as different numbers have
    different digits. -/
theorem temporaryCandidates_nodup (k : Nat) :
    ((List.range k).map fun j => ".tmp" ++ toString j).Nodup := by
  refine List.Pairwise.map _ (fun i j hij heq => hij ?_) List.nodup_range
  have htext : (toString i).toList = (toString j).toList := by
    have hlist := congrArg String.toList heq
    rwa [String.toList_append, String.toList_append, List.append_cancel_left_eq] at hlist
  have hdigits : Nat.toDigits 10 i = Nat.toDigits 10 j := by
    simpa only [Nat.toString_eq_repr, Nat.toList_repr] using htext
  have hvalue := congrArg (fun ds => Nat.ofDigitChars 10 ds 0) hdigits
  simpa only [Nat.ofDigitChars_ten_toDigits] using hvalue

/-- The temporary file gets a name that is not taken: there is one candidate more than there are
    names, so one of them is free. -/
theorem temporaryName_not_mem (taken : List String) : temporaryName taken ∉ taken := by
  unfold temporaryName
  cases h : ((List.range (taken.length + 1)).map fun k => ".tmp" ++ toString k).find?
      fun s => ! taken.contains s with
  | some s =>
    have hs := List.find?_some h
    simp only [h, Option.getD_some]
    simpa using hs
  | none =>
    have hsub : (List.range (taken.length + 1)).map (fun k => ".tmp" ++ toString k) ⊆ taken := by
      intro s hs
      simpa using List.find?_eq_none.mp h s hs
    have hlen := (temporaryCandidates_nodup (taken.length + 1)).length_le_of_subset hsub
    rw [List.length_map, List.length_range] at hlen
    omega

/-! ### The steps -/

/-- Trees in which the same stands under each number are the same. -/
theorem ext_inode {fs fs' : FileSystem} (h : ∀ n, fs.inode? n = fs'.inode? n) : fs = fs' := by
  cases fs
  cases fs'
  exact congrArg FileSystem.mk (List.ext_getElem? h)

/-- Two changes of the entries of one directory are one change, the first and then the second. -/
theorem modifyEntries_modifyEntries (f g : List (String × Nat) → List (String × Nat)) :
    (fs.modifyEntries d f).modifyEntries d g = fs.modifyEntries d fun entries => g (f entries) := by
  refine ext_inode fun n => ?_
  simp only [modifyEntries, inode_modify]
  by_cases hn : d = n
  · simp only [if_pos hn]
    rcases fs.inode? n with _ | ⟨mode, owner, file | entries | target⟩ <;> rfl
  · simp only [if_neg hn]

/-- Changes of the entries of a directory come to the same if they agree on the entries that it
    has. -/
theorem modifyEntries_congr {f g : List (String × Nat) → List (String × Nat)}
    (h : ∀ entries, fs.entries? d = some entries → f entries = g entries) :
    fs.modifyEntries d f = fs.modifyEntries d g := by
  refine ext_inode fun n => ?_
  simp only [modifyEntries, inode_modify]
  by_cases hn : d = n
  · subst hn
    simp only [↓reduceIte]
    rcases hi : fs.inode? d with _ | ⟨mode, owner, file | entries | target⟩
    case some.directory =>
      have hentries : fs.entries? d = some entries := by simp only [entries?, hi]
      simp only [Option.map_some, h entries hentries]
    all_goals rfl
  · simp only [if_neg hn]

/-- A change that leaves entries as they are changes nothing. -/
theorem modifyEntries_id (fs : FileSystem) (d : Nat) :
    (fs.modifyEntries d fun entries => entries) = fs := by
  refine ext_inode fun n => ?_
  rw [modifyEntries, inode_modify]
  split
  · rcases fs.inode? n with _ | ⟨mode, owner, file | entries | target⟩ <;> rfl
  · rfl

/-- With the temporary file made, its entry leads to a new file that is empty. -/
theorem AtomicWrite.createTemporary_eq (w : AtomicWrite) (fs : FileSystem) :
    w.createTemporary fs
      = fs.replaceEntry w.directory w.temporary temporaryMode w.actor ByteArray.empty :=
  rfl

/-- The temporary file is found under its name. -/
theorem AtomicWrite.temporaryNumber_replaceEntry (w : AtomicWrite)
    (hd : (fs.entries? w.directory).isSome) :
    w.temporaryNumber? (fs.replaceEntry w.directory w.temporary mode owner bytes)
      = some fs.inodes.length := by
  have hentry : (fs.replaceEntry w.directory w.temporary mode owner bytes).entryIn?
      w.directory w.temporary = some fs.inodes.length := by
    rw [entry_replaceEntry hd, if_pos ⟨rfl, rfl⟩]
  unfold entryIn? entries? at hentry
  unfold AtomicWrite.temporaryNumber?
  rcases hi : (fs.replaceEntry w.directory w.temporary mode owner bytes).inode? w.directory
    with _ | ⟨mode, owner, file | entries | target⟩
  case some.directory => simpa only [hi, Option.bind_some] using hentry
  all_goals simp [hi] at hentry

/-- A change of the new file alone comes to another new file in its place. -/
theorem modify_replaceEntry (hd : (fs.entries? d).isSome) (f : Inode → Inode) {mode' : Nat}
    {bytes' : ByteArray}
    (hf : f ⟨mode, owner, .file bytes⟩ = ⟨mode', owner, .file bytes'⟩) :
    (fs.replaceEntry d name mode owner bytes).modify fs.inodes.length f
      = fs.replaceEntry d name mode' owner bytes' := by
  have hlt := lt_length_of_entries hd
  refine ext_inode fun n => ?_
  rw [inode_modify]
  by_cases hn : fs.inodes.length = n
  · subst hn
    rw [if_pos rfl, inode_replaceEntry_length hlt, inode_replaceEntry_length hlt,
      Option.map_some, hf]
  · rw [if_neg hn]
    simp only [replaceEntry, modifyEntries, inode_modify, inode_add, if_neg (Ne.symm hn)]

/-- With the temporary file written, its entry leads to a new file with the octets. -/
theorem AtomicWrite.writeTemporary_replaceEntry (w : AtomicWrite)
    (hd : (fs.entries? w.directory).isSome) :
    w.writeTemporary (fs.replaceEntry w.directory w.temporary mode owner bytes)
      = fs.replaceEntry w.directory w.temporary mode owner w.bytes := by
  rw [AtomicWrite.writeTemporary, AtomicWrite.onTemporary, w.temporaryNumber_replaceEntry hd]
  exact modify_replaceEntry hd _ rfl

/-- With its mode set, its entry leads to a new file with the mode of the old one. -/
theorem AtomicWrite.copyMode_replaceEntry (w : AtomicWrite)
    (hd : (fs.entries? w.directory).isSome) :
    w.copyMode (fs.replaceEntry w.directory w.temporary mode owner bytes)
      = fs.replaceEntry w.directory w.temporary w.mode owner bytes := by
  rw [AtomicWrite.copyMode, AtomicWrite.onTemporary, w.temporaryNumber_replaceEntry hd]
  exact modify_replaceEntry hd _ rfl

/-- An entry that was added and is removed again was never there. -/
theorem filter_put {entries : Entries Nat} (hnew : temporary ∉ entries.keys) (n : Nat) :
    (Entries.put temporary n entries).filter (fun e => e.1 != temporary) = entries := by
  have hall : ∀ e ∈ entries, (e.1 != temporary) = true := by
    intro e he
    have hkey : e.1 ∈ entries.keys := List.mem_map_of_mem he
    exact bne_iff_ne.mpr fun heq => hnew (heq ▸ hkey)
  rw [Entries.put_of_not_mem hnew, List.filter_append, List.filter_eq_self.mpr hall]
  simp

/-- An entry that was added and is renamed is put under the other name at once. -/
theorem renameEntry_put {entries : Entries Nat} (hnew : temporary ∉ entries.keys) (n : Nat) :
    renameEntry temporary name (Entries.put temporary n entries) = Entries.put name n entries := by
  rw [renameEntry, Entries.find_put, if_pos rfl]
  simp only [filter_put hnew]

/-- With the temporary file renamed, the entry that is replaced leads to it, and its own entry
    was never there. -/
theorem AtomicWrite.replace_replaceEntry (w : AtomicWrite)
    (hnew : fs.entryIn? w.directory w.temporary = none) :
    w.replace (fs.replaceEntry w.directory w.temporary mode owner bytes)
      = fs.replaceEntry w.directory w.name mode owner bytes := by
  rw [AtomicWrite.replace, replaceEntry, modifyEntries_modifyEntries]
  refine modifyEntries_congr fun entries hentries => renameEntry_put ?_ _
  rw [← Entries.find_eq_none_iff]
  rw [entries_add] at hentries
  split at hentries
  · cases hentries
  · simpa only [entryIn?, hentries, Option.bind_some] using hnew

/-- **All steps together** make the entry lead to a new file. -/
theorem AtomicWrite.carryOut_eq (w : AtomicWrite) (hd : (fs.entries? w.directory).isSome)
    (hnew : fs.entryIn? w.directory w.temporary = none) :
    w.carryOut fs = fs.replaceEntry w.directory w.name w.mode w.actor w.bytes :=
  calc w.carryOut fs
      = w.replace (w.copyMode (w.writeTemporary (w.createTemporary fs))) := rfl
    _ = w.replace (fs.replaceEntry w.directory w.temporary w.mode w.actor w.bytes) := by
        rw [w.createTemporary_eq, w.writeTemporary_replaceEntry hd, w.copyMode_replaceEntry hd]
    _ = fs.replaceEntry w.directory w.name w.mode w.actor w.bytes := w.replace_replaceEntry hnew

/-! ### The plan

All that can forbid a step is asked before the first one. That this is enough, because no step
changes what the next one asks, is a matter for the calls behind the steps, which are a relation of
their own.
-/

/-- Whether an actor may put a new file in place of an entry, which must be there and lead
    to no directory. -/
def MayPut (fs : FileSystem) (actor : Actor) (d : Nat) (name : String) : Prop :=
  ∃ directory entries m old, fs.inode? d = some directory ∧
    directory.content = .directory entries ∧ directory.permits actor .write = true ∧
    directory.permits actor .search = true ∧ Entries.find? name entries = some m ∧
    fs.inode? m = some old ∧ fs.entries? m = none ∧ mayReplace actor directory old = true

/-- **When a plan can be made**, and which: the path must lead somewhere and end in an entry that
    the actor may replace. -/
theorem planAtomic_eq_ok_iff {path : String} {w : AtomicWrite} :
    fs.planAtomic actor path bytes = .ok w ↔
      ∃ n u old d name entries, fs.resolve actor true path = .ok (n :: u) ∧
        fs.inode? n = some old ∧ fs.entryOf actor path = .ok (d, name) ∧
        fs.entries? d = some entries ∧ fs.MayPut actor d name ∧
        w = ⟨d, name, temporaryName (Entries.keys entries), actor, old.mode, bytes⟩ := by
  constructor
  · intro h
    unfold planAtomic at h
    obtain ⟨place, hr, hplace⟩ := bind_eq_ok_iff.mp h
    obtain ⟨⟨d, name⟩, he, hplan⟩ := bind_eq_ok_iff.mp hplace
    rw [mapError_eq_ok_iff] at hr he
    simp only at hplan
    -- the old file and the directory are there
    split at hplan
    · next old mode owner entries hold hd =>
      obtain ⟨n, u, rfl⟩ : ∃ n u, place = n :: u := by
        cases place with
        | nil => cases hold
        | cons n u => exact ⟨n, u, rfl⟩
      -- of what is asked next, only the last answer of each is no error
      split at hplan
      · cases hplan
      · next hp =>
        split at hplan
        · cases hplan
        · cases hplan
        · next entry hdir hentry =>
          split at hplan
          · cases hplan
          · next hmay =>
            obtain ⟨m, hm, hinode⟩ := Option.bind_eq_some_iff.mp hentry
            simp only [Bool.not_eq_true', Bool.not_eq_false, Bool.and_eq_true] at hp hmay
            have hnone : fs.entries? m = none := by
              unfold entries?
              rw [hinode]
              rcases entry with ⟨mode', owner', file | entries' | target⟩
              case directory => exact absurd rfl (hdir _ _ _)
              all_goals rfl
            refine ⟨n, u, old, d, name, entries, hr, hold, he, ?_,
              ⟨_, entries, m, entry, hd, rfl, hp.1, hp.2, hm, hinode, hnone, hmay⟩,
              (Except.ok.inj hplan).symm⟩
            simp only [entries?, hd]
    · cases hplan
  · rintro ⟨n, u, old, d, name, entries, hr, hold, he, hd, hmay, rfl⟩
    obtain ⟨⟨mode, owner, content⟩, entries', k, m, hdir, hcontent, hw, hs, hk, hinode, hnone,
      hmay⟩ := hmay
    obtain rfl : content = .directory entries' := hcontent
    obtain rfl : entries' = entries := by simpa [entries?, hdir] using hd
    unfold entries? at hnone
    rw [hinode] at hnone
    rcases m with ⟨mode', owner', file | entries | target⟩ <;>
      simp [planAtomic, bind, Except.bind, hr, he, mapError_ok, hold, hdir, hw, hs, hk, hinode,
        hmay, pure, Except.pure] at hnone ⊢

/-- **What an atomic write is**: the entry leads to a new file, with the mode of the old one and
    the actor as its owner. -/
theorem writeAtomic_eq_ok_iff {path : String} {fs' : FileSystem} :
    fs.writeAtomic actor path bytes = .ok fs' ↔
      ∃ n u old d name, fs.resolve actor true path = .ok (n :: u) ∧ fs.inode? n = some old ∧
        fs.entryOf actor path = .ok (d, name) ∧ fs.MayPut actor d name ∧
        fs' = fs.replaceEntry d name old.mode actor bytes := by
  -- the temporary name is new, so the plan comes to a replaced entry
  have hcarry {d mode : Nat} {name : String} {entries : Entries Nat}
      (hd : fs.entries? d = some entries) :
      (AtomicWrite.mk d name (temporaryName (Entries.keys entries)) actor mode bytes).carryOut fs
        = fs.replaceEntry d name mode actor bytes := by
    refine AtomicWrite.carryOut_eq _ (by rw [hd]; rfl) ?_
    rw [entryIn?, hd, Option.bind_some, Entries.find_eq_none_iff]
    exact temporaryName_not_mem _
  constructor
  · intro h
    obtain ⟨w, hw, h⟩ := bind_eq_ok_iff.mp h
    obtain ⟨n, u, old, d, name, entries, hr, hold, he, hd, hmay, rfl⟩ :=
      planAtomic_eq_ok_iff.mp hw
    cases h
    exact ⟨n, u, old, d, name, hr, hold, he, hmay, hcarry hd⟩
  · rintro ⟨n, u, old, d, name, hr, hold, he, hmay, rfl⟩
    obtain ⟨⟨mode, owner, content⟩, entries, -, -, hdir, hcontent, -⟩ := id hmay
    have hd : fs.entries? d = some entries := by
      rw [show content = .directory entries from hcontent] at hdir
      simp only [entries?, hdir]
    unfold writeAtomic
    rw [planAtomic_eq_ok_iff.mpr ⟨n, u, old, d, name, entries, hr, hold, he, hd, hmay, rfl⟩]
    exact congrArg Except.ok (hcarry hd)

end SchemaEmbed.FileSystem
