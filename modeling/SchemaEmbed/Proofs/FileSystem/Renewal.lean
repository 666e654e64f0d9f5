import SchemaEmbed.Proofs.FileSystem.Overwrite

namespace SchemaEmbed.FileSystem

/-!
# Writing a file again

A second run writes the files that a first one has written. For it to end like the first, writing
again must be permitted and must change nothing that is read. Both need an argument where files are
replaced: the new file has another owner than the old one had, and a replacement in between may
have moved entries about.

* `Writable` / `Renewable` — what it takes to write a file in place, and to replace one that the
  same actor has put in its place;
* `Rewritable` — the one that goes with a way of writing;
* `rewritable_of_writeText` / `Rewritable.writeText` — a written file is rewritable, and stays it
  when another is written;
* `Rewritable.again` — **the same text once more** can be written and changes nothing.
-/

variable {fs fs' : FileSystem} {actor who : Actor} {path text : String} {d mode : Nat}
  {name : String} {bytes : ByteArray}

/-- Whether a path leads to a file that can be written in place. -/
def Writable (fs : FileSystem) (actor : Actor) (path : String) : Prop :=
  ∃ n u mode owner bytes, fs.resolve actor true path = .ok (n :: u) ∧
    fs.inode? n = some ⟨mode, owner, .file bytes⟩ ∧
    Inode.permits ⟨mode, owner, .file bytes⟩ actor .write = true

/-- Whether a path ends in an entry that can be replaced and leads at once to a file of the
    actor. -/
def Renewable (fs : FileSystem) (actor : Actor) (path : String) : Prop :=
  ∃ d name m mode bytes, fs.entryOf actor path = .ok (d, name) ∧ fs.MayPut actor d name ∧
    fs.entryIn? d name = some m ∧ fs.inode? m = some ⟨mode, actor, .file bytes⟩

/-- Whether a path leads to a file that can be written again. -/
def Rewritable (fs : FileSystem) (actor : Actor) (mode : WriteMode) (path : String) : Prop :=
  match mode with
  | .inPlace => fs.Writable actor path
  | .atomic => fs.Renewable actor path

/-! ### In place -/

/-- A path that can be written in place can be so after any write in place, of this file or of
    another. -/
theorem Writable.setBytes {n mode : Nat} {owner : Actor} {old : ByteArray}
    (h : fs.Writable actor path) (hi : fs.inode? n = some ⟨mode, owner, .file old⟩) :
    (fs.setBytes n bytes).Writable actor path := by
  obtain ⟨m, u, mode', owner', bytes', hr, hm, hp⟩ := h
  have hr' : (fs.setBytes n bytes).resolve actor true path = .ok (m :: u) := by
    rw [resolve_setBytes hi, hr]
  have hinode : (fs.setBytes n bytes).inode? m = _ := inode_setBytes hi m
  by_cases hnm : n = m
  · subst hnm
    rw [hm] at hi
    cases hi
    rw [if_pos rfl] at hinode
    exact ⟨n, u, mode, owner, bytes, hr', hinode, hp⟩
  · rw [if_neg hnm, hm] at hinode
    exact ⟨m, u, mode', owner', bytes', hr', hinode, hp⟩

/-- To write what a file holds already is no change at all. -/
theorem setBytes_self {n mode : Nat} {owner : Actor}
    (hi : fs.inode? n = some ⟨mode, owner, .file bytes⟩) : fs.setBytes n bytes = fs := by
  refine ext_inode fun m => ?_
  rw [inode_setBytes hi]
  split
  · next h => subst h; exact hi.symm
  · rfl

/-! ### By a new file

A renewable entry leads to its file without a link in between. So a replacement by the same octets
cannot be told at all: a path to the old file leads to a new one in the same place, with the same
mode and the same owner.
-/

section

variable {around : Trail} {n : Nat} (tree : fs.IsTree)
  (h : fs.LeadsToFile actor d around name n)

include tree h

/-- After a replacement paths end in the same entries, since ways to directories stay. -/
theorem entryOf_replaceEntry {owner : Actor} {e : Nat} {s : String}
    (he : fs.entryOf actor path = .ok (e, s)) :
    (fs.replaceEntry d name mode owner bytes).entryOf actor path = .ok (e, s) := by
  obtain ⟨parts, r, hparts, hw, hdir⟩ := entryOf_eq_ok_iff.mp he
  refine entryOf_eq_ok_iff.mpr ⟨parts, r, hparts,
    walk_replaceEntry_directory tree h (isTrail_base path) hdir hw, ?_⟩
  obtain ⟨mode', owner', entries, hi⟩ := entries_isSome_iff.mp hdir
  simp only [entries?, inode_replaceEntry_directory hi rfl]
  rfl

omit tree in
/-- After a replacement by an actor the same actor may replace whatever it could before, the new
    file included. -/
theorem mayPut_replaceEntry {e : Nat} {s : String} (hmay : fs.MayPut actor e s) :
    (fs.replaceEntry d name mode actor bytes).MayPut actor e s := by
  obtain ⟨directory, entries, m, old, he, hentries, hw, hs, hm, hold, hnone, hreplace⟩ := hmay
  have hlt := lt_length_of_entries h.directory
  have he' : (fs.replaceEntry d name mode actor bytes).inode? e = _ :=
    inode_replaceEntry_directory he hentries
  by_cases hat : d = e ∧ name = s
  · obtain ⟨rfl, rfl⟩ := hat
    rw [if_pos rfl] at he'
    -- the new file belongs to the actor, who may replace it even in a sticky directory
    refine ⟨_, _, fs.inodes.length, _, he', rfl, hw, hs, by rw [Entries.find_put, if_pos rfl],
      inode_replaceEntry_length hlt, ?_, ?_⟩
    · unfold entries?
      rw [inode_replaceEntry_length hlt]
    · simp [mayReplace]
  · -- an entry that leads to a file does not lead to the directory that changed
    have hne : d ≠ m := by
      rintro rfl
      have hdir := h.directory
      rw [hnone] at hdir
      cases hdir
    have hold' : (fs.replaceEntry d name mode actor bytes).inode? m = some old := by
      rw [inode_replaceEntry_of_lt (lt_length_of_inode hold), modifyEntries, inode_modify,
        if_neg hne, hold]
    refine ⟨_, _, m, old, he', rfl, hw, hs, ?_, hold', ?_, hreplace⟩
    · split
      · next hde => rw [Entries.find_put, if_neg fun hns => hat ⟨hde, hns⟩, hm]
      · exact hm
    · unfold entries? at hnone ⊢
      rw [hold']
      rw [hold] at hnone
      exact hnone

/-- What an actor has put in its place is renewable: the entry leads at once to a file that the
    actor owns. -/
theorem renewable_replaceEntry (he : fs.entryOf actor path = .ok (d, name))
    (hmay : fs.MayPut actor d name) :
    (fs.replaceEntry d name mode actor bytes).Renewable actor path :=
  ⟨d, name, fs.inodes.length, mode, bytes, entryOf_replaceEntry tree h he,
    mayPut_replaceEntry h hmay, by rw [entry_replaceEntry h.directory, if_pos ⟨rfl, rfl⟩],
    inode_replaceEntry_length (lt_length_of_entries h.directory)⟩

/-- A path stays renewable when the actor replaces something else, or the same again. -/
theorem Renewable.replaceEntry (hpath : fs.Renewable actor path) :
    (fs.replaceEntry d name mode actor bytes).Renewable actor path := by
  obtain ⟨e, s, m, mode', bytes', he, hmay, hm, hi⟩ := hpath
  have he' : (fs.replaceEntry d name mode actor bytes).entryOf actor path = _ :=
    entryOf_replaceEntry tree h he
  by_cases hat : d = e ∧ name = s
  · obtain ⟨rfl, rfl⟩ := hat
    exact renewable_replaceEntry tree h he hmay
  · have hne : d ≠ m := by
      rintro rfl
      obtain ⟨mode'', owner, entries, hdir⟩ := entries_isSome_iff.mp h.directory
      rw [hi] at hdir
      cases hdir
    refine ⟨e, s, m, mode', bytes', he', mayPut_replaceEntry h hmay, ?_, ?_⟩
    · rw [entry_replaceEntry h.directory, if_neg hat, hm]
    · rw [inode_replaceEntry_of_lt (lt_length_of_inode hi), modifyEntries, inode_modify,
        if_neg hne, hi]

/-- **A renewal changes nothing that can be read**, for the actor and the superuser: what
    led to the old file leads to a new one that is the same. -/
theorem readBytes_renewal {owner : Actor} (hentry : fs.entryIn? d name = some n)
    (hi : fs.inode? n = some ⟨mode, owner, .file bytes⟩) (q : String) :
    (fs.replaceEntry d name mode owner bytes).readBytes actor q = fs.readBytes actor q := by
  have hframe : Reframed fs actor d name n fs.inodes.length (base q) (partsOf q)
      (fs.walk actor true maxLinks (base q) (partsOf q))
      ((fs.replaceEntry d name mode owner bytes).walk actor true maxLinks (base q) (partsOf q)) :=
    walk_replaceEntry tree h maxLinks (base q) (partsOf q) (isTrail_base q)
  rw [readBytes_eq, readBytes_eq]
  unfold resolve
  by_cases hempty : q.isEmpty
  · rw [if_pos hempty, if_pos hempty]; rfl
  by_cases hlong : q.utf8ByteSize > maxPath
  · rw [if_neg hempty, if_neg hempty, if_pos hlong, if_pos hlong]; rfl
  rw [if_neg hempty, if_neg hempty, if_neg hlong, if_neg hlong, ← base]
  have htrail (u : Trail) (hu : fs.walk actor true maxLinks (base q) (partsOf q) = .ok u) :
      fs.IsTrail u := walk_isTrail (isTrail_base q) hu
  generalize fs.walk actor true maxLinks (base q) (partsOf q) = before at hframe htrail ⊢
  generalize (fs.replaceEntry d name mode owner bytes).walk actor true maxLinks (base q)
    (partsOf q) = after at hframe ⊢
  -- of the three things that can become of a walk, the frame leaves two
  cases hframe with
  | same =>
    cases before with
    | error e => rfl
    | ok u =>
      cases u with
      | nil => rfl
      | cons m u => exact bytesAt_replaceEntry h ((htrail _ rfl).lt_length tree) u
  -- the entry is the file itself, so no link can have been on the way from it
  | beyond hlink => exact absurd hentry hlink
  | @led r u hled hplain =>
    rw [hplain hentry]
    exact bytesAt_congr ((inode_replaceEntry_length (lt_length_of_entries h.directory)).trans
      hi.symm) u u

end

/-! ### Both ways -/

/-- A file that was written can be written again in the same way. -/
theorem rewritable_of_writeText {before : String} {mode : WriteMode} (tree : fs.IsTree)
    (hread : fs.readText actor path = .ok before)
    (h : fs.writeText actor mode path text = .ok fs') : fs'.Rewritable actor mode path := by
  cases mode with
  | inPlace =>
    obtain ⟨n, u, mode, owner, old, hr, hi, hp, rfl⟩ :=
      writeInPlace_eq_ok_iff.mp (mapError_eq_ok_iff.mp h)
    exact Writable.setBytes ⟨n, u, mode, owner, old, hr, hi, hp⟩ hi
  | atomic =>
    obtain ⟨n, u, hr, hnames⟩ := names_of_readText hread
    obtain ⟨n', u', old, d, name, hr', hi, he, hmay, rfl⟩ := writeAtomic_eq_ok_iff.mp h
    obtain ⟨parts, around, -, -, hleads⟩ := leadsToFile_of_entryOf hr hnames.1 he
    exact renewable_replaceEntry tree hleads he hmay

/-- A file that can be written again can still be so after another one was written. -/
theorem Rewritable.writeText {before other : String} {mode : WriteMode} (tree : fs.IsTree)
    (hpath : fs.Rewritable actor mode path) (hread : fs.readText actor other = .ok before)
    (h : fs.writeText actor mode other text = .ok fs') : fs'.Rewritable actor mode path := by
  cases mode with
  | inPlace =>
    obtain ⟨n, u, mode, owner, old, hr, hi, hp, rfl⟩ :=
      writeInPlace_eq_ok_iff.mp (mapError_eq_ok_iff.mp h)
    exact Writable.setBytes hpath hi
  | atomic =>
    obtain ⟨n, u, hr, hnames⟩ := names_of_readText hread
    obtain ⟨n', u', old, d, name, hr', hi, he, hmay, rfl⟩ := writeAtomic_eq_ok_iff.mp h
    obtain ⟨parts, around, -, -, hleads⟩ := leadsToFile_of_entryOf hr hnames.1 he
    exact Renewable.replaceEntry tree hleads hpath

/-- **The same text once more** can be written, and changes nothing that the actor and the
    superuser can read. -/
theorem Rewritable.again {mode : WriteMode} (tree : fs.IsTree)
    (hpath : fs.Rewritable actor mode path) (hread : fs.readText actor path = .ok text) :
    ∃ fs', fs.writeText actor mode path text = .ok fs' ∧
      ∀ who, who = actor ∨ who = .superuser → ∀ q, fs'.readBytes who q = fs.readBytes who q := by
  obtain ⟨-, hbytes⟩ := readText_eq_ok_iff.mp hread
  obtain ⟨n, u, mode', owner, hr, hi, -⟩ := readBytes_eq_ok_iff.mp hbytes
  cases mode with
  | inPlace =>
    obtain ⟨n', u', mode, owner', old, hr', hi', hp⟩ := hpath
    obtain ⟨rfl, rfl⟩ : n = n' ∧ u = u' := by simpa [hr] using hr'
    refine ⟨fs.setBytes n text.toUTF8, mapError_eq_ok_iff.mpr (writeInPlace_eq_ok_iff.mpr
      ⟨n, u, mode, owner', old, hr, hi', hp, rfl⟩), fun who _ q => ?_⟩
    rw [setBytes_self hi]
  | atomic =>
    obtain ⟨d, name, m, mode'', bytes, he, hmay, hm, him⟩ := hpath
    have hn : (fs.file? n).isSome := file_isSome_iff.mpr ⟨mode', owner, _, hi⟩
    obtain ⟨parts, around, -, -, hleads⟩ := leadsToFile_of_entryOf hr hn he
    -- the entry leads at once to the file that was read
    obtain rfl : m = n := by
      obtain ⟨m', hm'⟩ := hleads.found
      obtain rfl : m' = m := by simpa [entry_of_lookUp hm'] using hm
      have hfile : fs.link? m' = none := by
        unfold link?
        rw [him]
      refine Leads.unique ⟨0, d :: around, ?_⟩ hleads.leads
      rw [walk_plain hm' hfile, walk_nil]
    rw [him] at hi
    cases hi
    refine ⟨fs.replaceEntry d name mode' actor text.toUTF8, writeAtomic_eq_ok_iff.mpr
      ⟨m, u, _, d, name, hr, him, he, hmay, rfl⟩, fun who hwho q => ?_⟩
    rcases hwho with rfl | rfl
    · exact readBytes_renewal tree hleads hm him q
    · exact readBytes_renewal tree hleads.superuser hm him q

end SchemaEmbed.FileSystem
