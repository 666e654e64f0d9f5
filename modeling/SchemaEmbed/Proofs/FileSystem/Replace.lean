import SchemaEmbed.Proofs.FileSystem.Update

namespace SchemaEmbed.FileSystem

/-!
# An entry is made to lead to a new file

What an atomic write comes to is that one entry of a directory, which led to a file, leads to a new
one. Everybody else goes on as before, and this has to be said of paths of any shape: such a path
may go through symbolic links, up and down, and over the entry itself.

* `replaceEntry` — the tree after that, which is a tree (`IsTree.replaceEntry`);
* `LeadsToFile` — an entry in its place, and the file behind it;
* `walk_replaceEntry` — **the frame of a replacement**: a walk comes to the same as before, unless
  it led to the old file, or had met the limit of links on its way and now finds that it goes on
  beyond a file.

The entry may be a symbolic link to the file. Then the new file takes the place of the link, and
the old file stays where the link pointed to.
-/

variable {fs : FileSystem} {actor owner : Actor} {d mode : Nat} {name : String}
  {bytes : ByteArray}

/-- The tree in which an entry of a directory leads to a new file. -/
def replaceEntry (fs : FileSystem) (d : Nat) (name : String) (mode : Nat) (owner : Actor)
    (bytes : ByteArray) : FileSystem :=
  (fs.add ⟨mode, owner, .file bytes⟩).2.modifyEntries d (Entries.put name fs.inodes.length)

/-! ### What stands where -/

/-- What was there is there still, but for the entries of the one directory. -/
theorem inode_replaceEntry_of_lt {m : Nat} (hm : m < fs.inodes.length) :
    (fs.replaceEntry d name mode owner bytes).inode? m = (fs.modifyEntries d
      (Entries.put name fs.inodes.length)).inode? m := by
  unfold replaceEntry modifyEntries
  rw [inode_modify, inode_modify, inode_add, if_neg (Nat.ne_of_lt hm)]

/-- Under the new number stands the new file. -/
theorem inode_replaceEntry_length (hd : d < fs.inodes.length) :
    (fs.replaceEntry d name mode owner bytes).inode? fs.inodes.length
      = some ⟨mode, owner, .file bytes⟩ := by
  unfold replaceEntry modifyEntries
  rw [inode_modify, if_neg (Nat.ne_of_lt hd), inode_add, if_pos rfl]

/-- A directory that was there has its mode and its owner still; its entries are changed if it is
    the one. -/
theorem inode_replaceEntry_directory {e : Nat} {directory : Inode} {owner : Actor}
    {entries : Entries Nat} (he : fs.inode? e = some directory)
    (hentries : directory.content = .directory entries) :
    (fs.replaceEntry d name mode owner bytes).inode? e = some { directory with
      content := .directory
        (if d = e then Entries.put name fs.inodes.length entries else entries) } := by
  rw [inode_replaceEntry_of_lt (lt_length_of_inode he), modifyEntries, inode_modify, he]
  obtain ⟨mode', owner', content⟩ := directory
  obtain rfl : content = .directory entries := hentries
  split <;> rfl

/-- Other directories have the entries that they had. -/
theorem entries_replaceEntry_of_ne {e : Nat} (he : e < fs.inodes.length) (hde : d ≠ e) :
    (fs.replaceEntry d name mode owner bytes).entries? e = fs.entries? e := by
  unfold entries?
  rw [inode_replaceEntry_of_lt he, modifyEntries, inode_modify, if_neg hde]

/-- Files that were there hold what they held, the old one too. -/
theorem file_replaceEntry_of_lt {m : Nat} (hm : m < fs.inodes.length) :
    (fs.replaceEntry d name mode owner bytes).file? m = fs.file? m := by
  have hsame := fs.file_modifyEntries d m (Entries.put name fs.inodes.length)
  simpa only [file?, inode_replaceEntry_of_lt hm] using hsame

/-- Symbolic links that were there have the targets that they had. -/
theorem link_replaceEntry_of_lt {m : Nat} (hm : m < fs.inodes.length) :
    (fs.replaceEntry d name mode owner bytes).link? m = fs.link? m := by
  have hsame := fs.link_modifyEntries d m (Entries.put name fs.inodes.length)
  simpa only [link?, inode_replaceEntry_of_lt hm] using hsame

/-- The one entry leads to the new file, and every other entry leads where it did. -/
theorem entry_replaceEntry (hd : (fs.entries? d).isSome) (e : Nat) (s : String) :
    (fs.replaceEntry d name mode owner bytes).entryIn? e s
      = if d = e ∧ name = s then some fs.inodes.length else fs.entryIn? e s := by
  have hadd (m : Nat) : (fs.add ⟨mode, owner, .file bytes⟩).2.entries? m = fs.entries? m := by
    rw [entries_add]
    split
    · next hm =>
      subst hm
      cases he : fs.entries? fs.inodes.length with
      | none => rfl
      | some entries => exact absurd (lt_length_of_entries (by rw [he]; rfl)) (Nat.lt_irrefl _)
    · rfl
  rw [replaceEntry, entry_modifyEntries_put (by rw [hadd]; exact hd)]
  simp only [entryIn?, hadd]

/-- A tree in which an entry leads to a new file is a tree, since a file can have any number of
    entries. -/
theorem IsTree.replaceEntry (tree : fs.IsTree) (hd : (fs.entries? d).isSome) :
    (fs.replaceEntry d name mode owner bytes).IsTree := by
  have hlt := lt_length_of_entries hd
  refine (tree.add fun s => rfl).putEntry name ?_ (by simp [FileSystem.add]) (by omega) ?_
  · rw [entries_add, if_neg (Nat.ne_of_lt hlt)]; exact hd
  · intro hdir
    rw [entries_add, if_pos rfl] at hdir
    cases hdir

/-! ### The frame of a replacement

A walk is followed part by part in both trees. As long as it does not come to the entry in its
directory, it takes the same steps; there it arrives at the new file at once, and the walk before
is known to lead to the old one. That the directory is recognised by its number alone, wherever the
walk came from, is due to the tree.
-/

/-- A name is found afterwards where it was found before, and not found for the same reason; only
    the one entry leads to another number. -/
theorem lookUp_replaceEntry {e : Nat} (he : e < fs.inodes.length) (r : Trail) (s : String)
    (hentry : (fs.entryIn? d name).isSome) :
    (fs.replaceEntry d name mode owner bytes).lookUp actor (e :: r) s
      = (fs.lookUp actor (e :: r) s).map fun m =>
          if d = e ∧ name = s then fs.inodes.length else m := by
  cases hdir : fs.entries? e with
  | none =>
    -- what is no directory has no entry that could lead elsewhere
    have hde : d ≠ e := by
      rintro rfl
      simp [entryIn?, hdir] at hentry
    have hdir' : (fs.replaceEntry d name mode owner bytes).entries? e = none :=
      (entries_replaceEntry_of_ne he hde).trans hdir
    rw [lookUp_of_no_entries hdir, lookUp_of_no_entries hdir']
    rfl
  | some entries =>
    obtain ⟨mode', owner', hi⟩ := entries_eq_some_iff.mp hdir
    rw [lookUp_of_inode hi rfl, lookUp_of_inode (inode_replaceEntry_directory hi rfl) rfl]
    have hperm : Inode.permits ⟨mode', owner', .directory (if d = e then
        Entries.put name fs.inodes.length entries else entries)⟩ actor .search
        = Inode.permits ⟨mode', owner', .directory entries⟩ actor .search := rfl
    rw [hperm]
    -- permissions and the length of the name decide as before
    split
    · rfl
    · split
      · rfl
      · by_cases hde : d = e
        · subst hde
          rw [if_pos rfl, Entries.find_put]
          by_cases hn : name = s
          · subst hn
            have hfind : (Entries.find? name entries).isSome := by
              simpa [entryIn?, hdir] using hentry
            obtain ⟨m, hm⟩ := Option.isSome_iff_exists.mp hfind
            simp [hm, Except.map]
          · cases Entries.find? s entries <;> simp [hn, Except.map]
        · cases hf : Entries.find? s entries <;> simp [hde, hf, Except.map]

/-- What must be a directory is one afterwards, if it was there before. -/
theorem requireDirectory_replaceEntry {t : Trail}
    (ht : ∀ n ∈ t.head?, n < fs.inodes.length) :
    (fs.replaceEntry d name mode owner bytes).requireDirectory t = fs.requireDirectory t := by
  cases t with
  | nil => rfl
  | cons n r =>
    have hinode : (fs.replaceEntry d name mode owner bytes).inode? n = _ :=
      inode_replaceEntry_of_lt (ht n rfl)
    rw [modifyEntries, inode_modify] at hinode
    simp only [requireDirectory, hinode]
    by_cases hdn : d = n
    · rw [if_pos hdn]
      rcases fs.inode? n with _ | ⟨mode', owner', file | entries | target⟩ <;> rfl
    · rw [if_neg hdn]

/-- A part that cannot be taken from a place cannot be taken afterwards, for the same reason. -/
theorem partFault_replaceEntry {t : Trail} (ht : ∀ n ∈ t.head?, n < fs.inodes.length)
    (hentry : (fs.entryIn? d name).isSome) (p : Part) :
    (fs.replaceEntry d name mode owner bytes).partFault? actor t p = fs.partFault? actor t p := by
  cases p with
  | here => simp only [partFault?, requireDirectory_replaceEntry ht]
  | up => simp only [partFault?, requireDirectory_replaceEntry ht]
  | name s =>
    cases t with
    | nil => rfl
    | cons e r =>
      simp only [partFault?, lookUp_replaceEntry (ht e rfl) r s hentry]
      cases fs.lookUp actor (e :: r) s <;> rfl

/-- Whether an entry of a directory in its place leads to a file, at once or through symbolic
    links. -/
structure LeadsToFile (fs : FileSystem) (actor : Actor) (d : Nat) (around : Trail)
    (name : String) (n : Nat) : Prop where
  trail : fs.IsTrail (d :: around)
  leads : fs.Leads actor (d :: around) [.name name] n
  file : (fs.file? n).isSome

/-- If an actor is led to a file by an entry, so is the superuser. -/
theorem LeadsToFile.superuser {around : Trail} {n : Nat}
    (h : fs.LeadsToFile actor d around name n) : fs.LeadsToFile .superuser d around name n :=
  ⟨h.trail, h.leads.superuser, h.file⟩

/-- An entry that leads to a file is found. -/
theorem LeadsToFile.found {around : Trail} {n : Nat}
    (h : fs.LeadsToFile actor d around name n) :
    ∃ m, fs.lookUp actor (d :: around) name = .ok m := by
  obtain ⟨k, u, hu⟩ := h.leads
  cases hs : fs.lookUp actor (d :: around) name with
  | error e =>
    have hfault : fs.partFault? actor (d :: around) (.name name) = some e := by
      simp only [partFault?, hs]
    rw [walk_stuck hfault] at hu
    cases hu
  | ok m => exact ⟨m, rfl⟩

/-- An entry that leads to a file is there. -/
theorem LeadsToFile.entry {around : Trail} {n : Nat}
    (h : fs.LeadsToFile actor d around name n) : (fs.entryIn? d name).isSome := by
  obtain ⟨m, hm⟩ := h.found
  rw [entry_of_lookUp hm]
  rfl

/-- The directory of an entry that leads to a file is there. -/
theorem LeadsToFile.directory {around : Trail} {n : Nat}
    (h : fs.LeadsToFile actor d around name n) : (fs.entries? d).isSome := by
  obtain ⟨m, hm⟩ := Option.isSome_iff_exists.mp h.entry
  exact entries_of_entry hm

/-- A path that comes to the entry and goes on finds nothing beyond the file, though the limit of
    links can be met before that. -/
theorem LeadsToFile.walk_beyond {around : Trail} {n : Nat}
    (h : fs.LeadsToFile actor d around name n) (k : Nat) (p : Part) (rest : List Part) :
    fs.walk actor true k (d :: around) (.name name :: p :: rest) = .error .tooManyLinks
      ∨ fs.walk actor true k (d :: around) (.name name :: p :: rest) = .error .notDirectory :=
  walk_beyond_file h.leads h.file k p rest

/-- What becomes of the outcome of a walk: it stays; or the limit of links had been met
    after an entry that is a link, and now the walk goes on beyond a file; or it led to the
    file `old`, at once if the entry was that file, and now arrives at `new`. -/
inductive Reframed (fs : FileSystem) (actor : Actor) (d : Nat) (name : String) (old new : Nat)
    (t : Trail) (parts : List Part) : (before after : Except OsError Trail) → Prop
  | same {r} : Reframed fs actor d name old new t parts r r
  | beyond (hlink : fs.entryIn? d name ≠ some old) :
    Reframed fs actor d name old new t parts (.error .tooManyLinks) (.error .notDirectory)
  | led {r u} (hled : fs.Leads actor t parts old)
    (hplain : fs.entryIn? d name = some old → r = .ok (old :: u)) :
    Reframed fs actor d name old new t parts r (.ok (new :: u))

/-- What becomes of the outcome of the rest of a walk becomes of that of the whole walk, if the
    whole leads to the old file whenever the rest does. -/
theorem Reframed.of_rest {old new : Nat} {t t' : Trail} {parts parts' : List Part}
    {before after : Except OsError Trail}
    (h : Reframed fs actor d name old new t parts before after)
    (hlead : fs.Leads actor t parts old → fs.Leads actor t' parts' old) :
    Reframed fs actor d name old new t' parts' before after := by
  cases h with
  | same => exact .same
  | beyond hlink => exact .beyond hlink
  | led hled hplain => exact .led (hlead hled) hplain

/-- A walk that comes to the entry arrives at the new file if its path ends there, and fails
    beyond it otherwise. -/
theorem reframed_at_entry {around : Trail} {n : Nat}
    (h : fs.LeadsToFile actor d around name n) (k : Nat) (rest : List Part) :
    Reframed fs actor d name n fs.inodes.length (d :: around) (.name name :: rest)
      (fs.walk actor true k (d :: around) (.name name :: rest))
      ((fs.replaceEntry d name mode owner bytes).walk actor true k (d :: around)
        (.name name :: rest)) := by
  have hd : d < fs.inodes.length := lt_length_of_entries h.directory
  obtain ⟨m, hm⟩ := h.found
  have hm' : (fs.replaceEntry d name mode owner bytes).lookUp actor (d :: around) name
      = .ok fs.inodes.length := by
    rw [lookUp_replaceEntry hd around name h.entry, hm]
    simp [Except.map]
  have hnew : ((fs.replaceEntry d name mode owner bytes).file? fs.inodes.length).isSome :=
    file_isSome_iff.mpr ⟨mode, owner, bytes, inode_replaceEntry_length hd⟩
  -- if the entry is the file itself, no link is on the way to it
  have hplain (hentry : fs.entryIn? d name = some n) (rest : List Part) :
      fs.walk actor true k (d :: around) (.name name :: rest)
        = fs.walk actor true k (n :: d :: around) rest := by
    obtain rfl : m = n := by simpa [entry_of_lookUp hm] using hentry
    exact walk_plain hm (link_of_file h.file) k rest
  rw [walk_plain hm' (link_of_file hnew)]
  -- the new file is entered without a link; whether the path ends there decides the rest
  cases rest with
  | nil => rw [walk_nil]; exact .led h.leads fun hentry => by rw [hplain hentry, walk_nil]
  | cons p rest =>
    rw [walk_from_file hnew]
    rcases h.walk_beyond k p rest with hlimit | hbeyond
    · rw [hlimit]
      refine .beyond fun hentry => ?_
      rw [hplain hentry, walk_from_file h.file] at hlimit
      cases hlimit
    · rw [hbeyond]; exact .same

/-- **The frame of a replacement.**  A walk comes to the same as before, unless it led to
    the old file, or had met the limit of links before it would have gone on beyond it. -/
theorem walk_replaceEntry (tree : fs.IsTree) {around : Trail} {n : Nat}
    (h : fs.LeadsToFile actor d around name n) (k : Nat) (t : Trail) (parts : List Part)
    (ht : fs.IsTrail t) :
    Reframed fs actor d name n fs.inodes.length t parts (fs.walk actor true k t parts)
      ((fs.replaceEntry d name mode owner bytes).walk actor true k t parts) := by
  have hhead {t : Trail} (ht : fs.IsTrail t) : ∀ m ∈ t.head?, m < fs.inodes.length := by
    intro m hm
    cases t with
    | nil => cases hm
    | cons m' r => cases hm; exact ht.lt_length tree
  -- there is one way to the directory, so that only its entry `name` is not found as before
  have hlook {t : Trail} {s : String} {m : Nat} (ht : fs.IsTrail t)
      (hs : fs.lookUp actor t s = .ok m) :
      (t = d :: around ∧ s = name) ∨
        (fs.replaceEntry d name mode owner bytes).lookUp actor t s = .ok m := by
    obtain ⟨e, r, i, rfl, -, -, -, -⟩ := lookUp_eq_ok_iff.mp hs
    by_cases hat : d = e ∧ name = s
    · obtain ⟨rfl, rfl⟩ := hat
      rw [ht.unique tree h.directory h.trail]
      exact .inl ⟨rfl, rfl⟩
    · rw [lookUp_replaceEntry (hhead ht e rfl) r s h.entry, hs]
      simp [Except.map, hat]
  have hlink {t : Trail} {s : String} {m : Nat} (hs : fs.lookUp actor t s = .ok m) :
      (fs.replaceEntry d name mode owner bytes).link? m = fs.link? m := by
    obtain ⟨e, r, i, rfl, -, -, -, he⟩ := lookUp_eq_ok_iff.mp hs
    exact link_replaceEntry_of_lt (tree.closed he)
  -- the three cases that look a name up are the ones where the entry can be met
  induction k, t, parts using fs.walk_induction actor with
  | nil k t => rw [walk_nil, walk_nil]; exact .same
  | stuck k t p rest e hp =>
    rw [walk_stuck hp, walk_stuck ((partFault_replaceEntry (hhead ht) h.entry p).trans hp)]
    exact .same
  | here k t rest hd ih =>
    have hd' : (fs.replaceEntry d name mode owner bytes).requireDirectory t = .ok () :=
      (requireDirectory_replaceEntry (hhead ht)).trans hd
    rw [walk_here hd, walk_here hd']
    refine (ih ht).of_rest fun ⟨l, u, hu⟩ => ⟨l, u, ?_⟩
    rw [walk_here hd, hu]
  | up k t rest hd ih =>
    have hd' : (fs.replaceEntry d name mode owner bytes).requireDirectory t = .ok () :=
      (requireDirectory_replaceEntry (hhead ht)).trans hd
    rw [walk_up hd, walk_up hd']
    refine (ih ht.tail).of_rest fun ⟨l, u, hu⟩ => ⟨l, u, ?_⟩
    rw [walk_up hd, hu]
  | plain k t s rest m hs hm ih =>
    rcases hlook ht hs with ⟨rfl, rfl⟩ | hs'
    · exact reframed_at_entry h k rest
    · rw [walk_plain hs hm, walk_plain hs' ((hlink hs).trans hm)]
      refine (ih (ht.lookUp hs)).of_rest fun ⟨l, u, hu⟩ => ⟨l, u, ?_⟩
      rw [walk_plain hs hm, hu]
  | limit t s rest m target hs hm =>
    rcases hlook ht hs with ⟨rfl, rfl⟩ | hs'
    · exact reframed_at_entry h 0 rest
    · rw [walk_limit hs hm, walk_limit hs' ((hlink hs).trans hm)]
      exact .same
  | link k t s rest m target hs hm ih =>
    rcases hlook ht hs with ⟨rfl, rfl⟩ | hs'
    · exact reframed_at_entry h (k + 1) rest
    · rw [walk_link hs hm, walk_link hs' ((hlink hs).trans hm)]
      refine (ih (ht.linkBase target)).of_rest fun ⟨l, u, hu⟩ => ⟨l + 1, u, ?_⟩
      rw [walk_link hs hm, hu]

end SchemaEmbed.FileSystem
