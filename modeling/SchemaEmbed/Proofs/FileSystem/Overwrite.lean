import SchemaEmbed.Proofs.FileSystem.AtomicWrite
import SchemaEmbed.Proofs.FileSystem.Reading

namespace SchemaEmbed.FileSystem

/-!
# What a successful write amounts to

A file is written in place or by a new file that takes its entry. Programs that only use paths
cannot tell these apart, but for two things: other names of the same file keep the old text after a
replacement, and a path that went through the entry and on, which leads nowhere, may fail for
another reason.

* `limitError` — the limit of links can be met on the way to an entry beyond a file, and after an
  atomic write of that file the way ends there;
* `Overwritten` — the file at a path holds a new text, and every path to another file reads as
  before; nothing that was two files became one;
* `walk_setBytes` — a write in place changes no walk;
* `leadsToFile_of_entryOf` / `resolve_replaceEntry` — an atomic write makes the path lead to the
  new file;
* `names_replaceEntry` — and no other file gets or loses a name;
* `writeText_overwritten` — both ways of writing amount to the same;
* `Touched` — what several writes in a row amount to for all other files.

Whether two paths name one file is asked of the tree before the write. After a replacement they may
name different ones, but never the other way round (`Overwritten.same`).
-/

variable {fs fs' : FileSystem} {actor who : Actor} {path text : String} {d mode : Nat}
  {name : String} {bytes : ByteArray}

/-- What becomes of the error that too many links were followed: after a write in place it
    is the same, after an atomic write the way may end before, beyond the file written. -/
def limitError : WriteMode → OsError
  | .inPlace => .tooManyLinks
  | .atomic => .notDirectory

/-- **What a successful write amounts to**, as far as the writer and the superuser read. -/
structure Overwritten (actor : Actor) (mode : WriteMode) (path text : String)
    (fs fs' : FileSystem) : Prop where
  tree : fs'.IsTree
  holds : fs'.readText .superuser path = .ok text
  kept : ∀ who, who = actor ∨ who = .superuser → ∀ q, ¬ fs.SameFile q path →
    Kept .tooManyLinks (limitError mode) (fs.readBytes who q) (fs'.readBytes who q)
  same : ∀ p q, fs'.SameFile p q → fs.SameFile p q

/-! ### In place

Only the content under one number changes, and that number is a file before and after. A walk never
looks at what a file holds.
-/

/-- When a file can be written in place. -/
theorem writeInPlace_eq_ok_iff :
    fs.writeInPlace actor path bytes = .ok fs' ↔
      ∃ n u mode owner old, fs.resolve actor true path = .ok (n :: u) ∧
        fs.inode? n = some ⟨mode, owner, .file old⟩ ∧
        Inode.permits ⟨mode, owner, .file old⟩ actor .write = true ∧
        fs' = fs.setBytes n bytes := by
  constructor
  · intro h
    unfold writeInPlace at h
    obtain ⟨t, hr, hplace⟩ := bind_eq_ok_iff.mp h
    cases t with
    | nil => cases hplace
    | cons n u =>
      rcases hi : fs.inode? n with _ | ⟨mode, owner, file | entries | target⟩
      all_goals simp only [hi] at hplace
      case some.file =>
        by_cases hp : Inode.permits ⟨mode, owner, .file file⟩ actor .write = true
        · rw [if_pos hp] at hplace
          exact ⟨n, u, mode, owner, file, hr, hi, hp, (Except.ok.inj hplace).symm⟩
        · rw [if_neg hp] at hplace; cases hplace
      -- neither a directory nor a link, at which no walk ends, is written to
      all_goals cases hplace
  · rintro ⟨n, u, mode, owner, old, hr, hi, hp, rfl⟩
    simp [writeInPlace, hr, hi, hp, bind, Except.bind, pure, Except.pure]

/-- In trees in which the same can be looked up and the same numbers are directories and links,
    walks are the same. -/
theorem walk_congr (hlook : ∀ t s, fs'.lookUp actor t s = fs.lookUp actor t s)
    (hdir : ∀ t, fs'.requireDirectory t = fs.requireDirectory t)
    (hlink : ∀ n, fs'.link? n = fs.link? n) (k : Nat) (t : Trail) (parts : List Part) :
    fs'.walk actor true k t parts = fs.walk actor true k t parts := by
  induction k, t, parts using fs.walk_induction actor with
  | nil k t => rw [walk_nil, walk_nil]
  | stuck k t p rest e hp =>
    have hp' : fs'.partFault? actor t p = some e := by
      rw [← hp]
      cases p <;> simp only [partFault?, hlook, hdir]
    rw [walk_stuck hp, walk_stuck hp']
  | here k t rest hd ih => rw [walk_here hd, walk_here ((hdir t).trans hd), ih]
  | up k t rest hd ih => rw [walk_up hd, walk_up ((hdir t).trans hd), ih]
  | plain k t s rest m hs hm ih =>
    rw [walk_plain hs hm, walk_plain ((hlook t s).trans hs) ((hlink m).trans hm), ih]
  | limit t s rest m target hs hm =>
    rw [walk_limit hs hm, walk_limit ((hlook t s).trans hs) ((hlink m).trans hm)]
  | link k t s rest m target hs hm ih =>
    rw [walk_link hs hm, walk_link ((hlook t s).trans hs) ((hlink m).trans hm), ih]

section

variable {n mode : Nat} {owner : Actor} {old : ByteArray}
  (hi : fs.inode? n = some ⟨mode, owner, .file old⟩)

include hi

/-- After a file was written it has its mode and its owner still, and everything else stands as
    it did. -/
theorem inode_setBytes (m : Nat) :
    (fs.setBytes n bytes).inode? m
      = if n = m then some ⟨mode, owner, .file bytes⟩ else fs.inode? m := by
  rw [setBytes, inode_modify]
  by_cases h : n = m
  · subst h
    rw [if_pos rfl, if_pos rfl, hi]
    rfl
  · rw [if_neg h, if_neg h]

/-- The file that was written holds what was written, and other files hold what they held. -/
theorem file_setBytes (m : Nat) :
    (fs.setBytes n bytes).file? m = if n = m then some bytes else fs.file? m := by
  unfold file?
  rw [inode_setBytes hi]
  by_cases h : n = m
  · rw [if_pos h, if_pos h]
  · rw [if_neg h, if_neg h]

/-- A write in place changes no directory. -/
theorem entries_setBytes (m : Nat) : (fs.setBytes n bytes).entries? m = fs.entries? m := by
  unfold entries?
  rw [inode_setBytes hi]
  by_cases h : n = m
  · subst h; rw [if_pos rfl, hi]
  · rw [if_neg h]

/-- **A write in place** changes no walk, so that it changes nothing about where paths lead. -/
theorem walk_setBytes (k : Nat) (t : Trail) (parts : List Part) :
    (fs.setBytes n bytes).walk actor true k t parts = fs.walk actor true k t parts := by
  refine walk_congr (fun t s => ?_) (fun t => ?_) (fun m => ?_) k t parts
  · cases t with
    | nil => rfl
    | cons m r =>
      simp only [lookUp, inode_setBytes hi]
      by_cases h : n = m
      · subst h; rw [if_pos rfl, hi]
      · rw [if_neg h]
  · cases t with
    | nil => rfl
    | cons m r =>
      simp only [requireDirectory, inode_setBytes hi]
      by_cases h : n = m
      · subst h; rw [if_pos rfl, hi]
      · rw [if_neg h]
  · simp only [link?, inode_setBytes hi]
    by_cases h : n = m
    · subst h; rw [if_pos rfl, hi]
    · rw [if_neg h]

/-- After a write in place every path leads where it did. -/
theorem resolve_setBytes (q : String) :
    (fs.setBytes n bytes).resolve actor true q = fs.resolve actor true q := by
  unfold resolve
  simp only [walk_setBytes hi]

/-- After a write in place every file has the names that it had. -/
theorem names_setBytes (q : String) (m : Nat) :
    (fs.setBytes n bytes).Names q m ↔ fs.Names q m := by
  unfold Names Leads
  simp only [walk_setBytes hi, file_setBytes hi]
  by_cases h : n = m
  · subst h
    have hn : (fs.file? n).isSome := file_isSome_iff.mpr ⟨mode, owner, old, hi⟩
    simp only [↓reduceIte, Option.isSome_some, hn]
  · rw [if_neg h]

/-- A path that does not name the file that was written reads as before. -/
theorem readBytes_setBytes {q : String} (hq : ¬ fs.Names q n) :
    (fs.setBytes n bytes).readBytes who q = fs.readBytes who q := by
  rw [readBytes_eq, readBytes_eq, resolve_setBytes hi]
  cases hr : fs.resolve who true q with
  | error e => rfl
  | ok t =>
    cases t with
    | nil => rfl
    | cons m u =>
      -- a path that is resolved to the file written names it
      have hne : n ≠ m := by
        intro h
        subst h
        exact hq (names_of_resolve hr (file_isSome_iff.mpr ⟨mode, owner, old, hi⟩))
      exact bytesAt_congr (by rw [inode_setBytes hi, if_neg hne]) u u

end

/-- A write in place that succeeds amounts to a file being overwritten, if the path could be
    read. -/
theorem writeInPlace_overwritten {before : String} (tree : fs.IsTree)
    (hread : fs.readText actor path = .ok before)
    (h : fs.writeInPlace actor path text.toUTF8 = .ok fs') :
    Overwritten actor .inPlace path text fs fs' := by
  obtain ⟨hnull, -⟩ := readText_eq_ok_iff.mp hread
  obtain ⟨n, u, mode, owner, old, hr, hi, hp, rfl⟩ := writeInPlace_eq_ok_iff.mp h
  have hn : (fs.file? n).isSome := file_isSome_iff.mpr ⟨mode, owner, old, hi⟩
  have hnames : fs.Names path n := names_of_resolve hr hn
  -- the tree stays one, the path reads as written, other files are kept, none become one
  refine ⟨tree.modify n _ (entries_setBytes hi), ?_, fun who hwho q hq => ?_, fun p q hpq => ?_⟩
  · have hr' : (fs.setBytes n text.toUTF8).resolve .superuser true path = .ok (n :: u) := by
      rw [resolve_setBytes hi]
      exact resolve_superuser hr
    have hi' : (fs.setBytes n text.toUTF8).inode? n = _ := (inode_setBytes hi n).trans (if_pos rfl)
    exact readText_eq_ok_iff.mpr
      ⟨hnull, readBytes_eq_ok_iff.mpr ⟨n, u, mode, owner, hr', hi', rfl⟩⟩
  · rw [readBytes_setBytes hi fun hqn => hq ⟨n, hqn, hnames⟩]
    exact .same
  · obtain ⟨m, hpm, hqm⟩ := hpq
    exact ⟨m, (names_setBytes hi p m).mp hpm, (names_setBytes hi q m).mp hqm⟩

/-! ### By a new file

The frame of a replacement, brought from walks to paths and from paths to what is read.
-/

/-- A path to a file ends in an entry that leads to it, and the parts before the last one are the
    way to the directory. -/
theorem leadsToFile_of_entryOf {n : Nat} {u : Trail}
    (hr : fs.resolve actor true path = .ok (n :: u)) (hn : (fs.file? n).isSome)
    (he : fs.entryOf actor path = .ok (d, name)) :
    ∃ parts around, partsOf path = parts ++ [.name name] ∧
      fs.walk actor true maxLinks (base path) parts = .ok (d :: around) ∧
      fs.LeadsToFile actor d around name n := by
  obtain ⟨-, -, hw⟩ := resolve_eq_ok_iff.mp hr
  obtain ⟨parts, around, hparts, hd, -⟩ := entryOf_eq_ok_iff.mp he
  -- the way to the directory takes `j` of the links, and the last name is looked up with the rest
  obtain ⟨j, hj, hwalk⟩ := walk_append hd
  have hlast : fs.walk actor true (maxLinks - j) (d :: around) [.name name] = .ok (n :: u) := by
    rw [← hwalk, Nat.sub_add_cancel hj, ← hparts, hw]
  exact ⟨parts, around, hparts, hd, walk_isTrail (isTrail_base path) hd, ⟨_, u, hlast⟩, hn⟩

section

variable {around : Trail} {n : Nat} {owner : Actor} (tree : fs.IsTree)
  (h : fs.LeadsToFile actor d around name n)

include tree h

/-- A walk that does not lead to the old file is kept: it comes to the same, or fails beyond the
    entry where it had failed at the limit of links. -/
theorem walk_replaceEntry_kept {k : Nat} {t : Trail} {parts : List Part} (ht : fs.IsTrail t)
    (hne : ¬ fs.Leads actor t parts n) :
    Kept .tooManyLinks .notDirectory (fs.walk actor true k t parts)
      ((fs.replaceEntry d name mode owner bytes).walk actor true k t parts) := by
  have hframe : Reframed fs actor d name n fs.inodes.length t parts (fs.walk actor true k t parts)
      ((fs.replaceEntry d name mode owner bytes).walk actor true k t parts) :=
    walk_replaceEntry tree h k t parts ht
  generalize fs.walk actor true k t parts = before at hframe ⊢
  generalize (fs.replaceEntry d name mode owner bytes).walk actor true k t parts = after
    at hframe ⊢
  cases hframe with
  | same => exact .same
  | beyond hlink => exact .beyond
  | led hled hplain => exact absurd hled hne

/-- A way to a directory stays one, since the old file is no directory. -/
theorem walk_replaceEntry_directory {k e : Nat} {r t : Trail} {parts : List Part}
    (ht : fs.IsTrail t) (he : (fs.entries? e).isSome)
    (hw : fs.walk actor true k t parts = .ok (e :: r)) :
    (fs.replaceEntry d name mode owner bytes).walk actor true k t parts = .ok (e :: r) := by
  -- the same way cannot lead to the old file as well
  refine ((walk_replaceEntry_kept tree h ht fun hled => ?_).ok_iff _).mp hw
  obtain rfl : e = n := Leads.unique ⟨k, r, hw⟩ hled
  rw [entries_of_file h.file] at he
  cases he

/-- **The path leads to the new file**, which stands in the directory where the entry is. -/
theorem resolve_replaceEntry {parts : List Part} {u : Trail}
    (hr : fs.resolve actor true path = .ok u) (hparts : partsOf path = parts ++ [.name name])
    (hd : fs.walk actor true maxLinks (base path) parts = .ok (d :: around)) :
    (fs.replaceEntry d name mode owner bytes).resolve actor true path
      = .ok (fs.inodes.length :: d :: around) := by
  obtain ⟨hempty, hlong, -⟩ := resolve_eq_ok_iff.mp hr
  refine resolve_eq_ok_iff.mpr ⟨hempty, hlong, ?_⟩
  -- the way to the directory is the old one, and takes as many links
  have hd' : (fs.replaceEntry d name mode owner bytes).walk actor true maxLinks (base path) parts
      = .ok (d :: around) :=
    walk_replaceEntry_directory tree h (isTrail_base path) h.directory hd
  obtain ⟨j, hj, hwalk⟩ := walk_append hd'
  obtain ⟨m, hm⟩ := h.found
  have hlt := lt_length_of_entries h.directory
  have hlook : (fs.replaceEntry d name mode owner bytes).lookUp actor (d :: around) name
      = .ok fs.inodes.length := by
    rw [lookUp_replaceEntry hlt around name h.entry, hm]
    simp [Except.map]
  have hlink : (fs.replaceEntry d name mode owner bytes).link? fs.inodes.length = none := by
    unfold link?
    rw [inode_replaceEntry_length hlt]
  rw [hparts, ← Nat.sub_add_cancel hj, hwalk, walk_plain hlook hlink, walk_nil]

/-- **No other file gets or loses a name**: what names the new file has named the old one, and
    what names another file has named that. -/
theorem names_replaceEntry {q : String} {m : Nat}
    (hm : (fs.replaceEntry d name mode owner bytes).Names q m) :
    (m = fs.inodes.length ∧ fs.Names q n) ∨ (m ≠ fs.inodes.length ∧ fs.Names q m) := by
  obtain ⟨hfile, k, u, hw⟩ := hm
  have hframe : Reframed fs .superuser d name n fs.inodes.length (base q) (partsOf q)
      (fs.walk .superuser true k (base q) (partsOf q))
      ((fs.replaceEntry d name mode owner bytes).walk .superuser true k (base q) (partsOf q)) :=
    walk_replaceEntry tree h.superuser k (base q) (partsOf q) (isTrail_base q)
  rw [hw] at hframe
  generalize hbefore : fs.walk .superuser true k (base q) (partsOf q) = before at hframe
  cases hframe with
  | same =>
    -- what the path names was there before the write, so it is not the new file
    have hlt := (walk_isTrail (isTrail_base q) hbefore).lt_length tree
    rw [file_replaceEntry_of_lt hlt] at hfile
    exact .inr ⟨Nat.ne_of_lt hlt, hfile, k, u, hbefore⟩
  | led hled hplain => exact .inl ⟨rfl, h.file, hled⟩

omit tree in
/-- At a place that was there the same is read. -/
theorem bytesAt_replaceEntry {m : Nat} (hm : m < fs.inodes.length) (u : Trail) :
    (fs.replaceEntry d name mode owner bytes).bytesAt who (m :: u) = fs.bytesAt who (m :: u) := by
  by_cases hdm : d = m
  · subst hdm
    obtain ⟨mode', owner', entries, hi⟩ := entries_isSome_iff.mp h.directory
    simp only [bytesAt, inode_replaceEntry_directory hi rfl, hi]
    rfl
  · refine bytesAt_congr ?_ u u
    rw [inode_replaceEntry_of_lt hm, modifyEntries, inode_modify, if_neg hdm]

/-- A path that does not name the old file reads as before, or fails for the reason that the
    frame allows. -/
theorem readBytes_replaceEntry_kept {q : String} (hq : ¬ fs.Names q n) :
    Kept .tooManyLinks .notDirectory (fs.readBytes actor q)
      ((fs.replaceEntry d name mode owner bytes).readBytes actor q) := by
  rw [readBytes_eq, readBytes_eq]
  refine Kept.bind (resolve_kept (walk_replaceEntry_kept tree h (isTrail_base q)
    fun hled => hq ⟨h.file, hled.superuser⟩)) fun t ht => ?_
  obtain ⟨-, -, hw⟩ := resolve_eq_ok_iff.mp ht
  cases t with
  | nil => exact .same
  | cons m u =>
    rw [bytesAt_replaceEntry h ((walk_isTrail (isTrail_base q) hw).lt_length tree)]
    exact .same

end

/-- A replacement that succeeds amounts to a file being overwritten, if the path could be read. -/
theorem writeAtomic_overwritten {before : String} (tree : fs.IsTree)
    (hread : fs.readText actor path = .ok before)
    (h : fs.writeAtomic actor path text.toUTF8 = .ok fs') :
    Overwritten actor .atomic path text fs fs' := by
  obtain ⟨n, u, hr, hnames⟩ := names_of_readText hread
  obtain ⟨n', u', old, d, name, hr', hi, he, hmay, rfl⟩ := writeAtomic_eq_ok_iff.mp h
  obtain ⟨rfl, rfl⟩ : n = n' ∧ u = u' := by simpa [hr] using hr'
  obtain ⟨parts, around, hparts, hd, hleads⟩ := leadsToFile_of_entryOf hr hnames.1 he
  -- the superuser reads the new file whatever its mode permits to the actor
  refine ⟨tree.replaceEntry hleads.directory, ?_, fun who hwho q hq => ?_, fun p q hpq => ?_⟩
  · have hres : (fs.replaceEntry d name old.mode actor text.toUTF8).resolve .superuser true path
        = .ok (fs.inodes.length :: d :: around) :=
      resolve_replaceEntry tree hleads.superuser (resolve_superuser hr) hparts (walk_superuser hd)
    exact readText_eq_ok_iff.mpr ⟨(readText_eq_ok_iff.mp hread).1, readBytes_eq_ok_iff.mpr
      ⟨_, _, _, _, hres, inode_replaceEntry_length (lt_length_of_entries hleads.directory), rfl⟩⟩
  · have hqn : ¬ fs.Names q n := fun hqn => hq ⟨n, hqn, hnames⟩
    rcases hwho with rfl | rfl
    · exact readBytes_replaceEntry_kept tree hleads hqn
    · exact readBytes_replaceEntry_kept tree hleads.superuser hqn
  · -- two names of the new file named the old one, and other files keep theirs
    obtain ⟨m, hpm, hqm⟩ := hpq
    rcases names_replaceEntry tree hleads hpm with ⟨rfl, hpn⟩ | ⟨hne, hpm⟩
    · rcases names_replaceEntry tree hleads hqm with ⟨-, hqn⟩ | ⟨hne, -⟩
      · exact ⟨n, hpn, hqn⟩
      · exact absurd rfl hne
    · rcases names_replaceEntry tree hleads hqm with ⟨rfl, -⟩ | ⟨-, hqm⟩
      · exact absurd rfl hne
      · exact ⟨m, hpm, hqm⟩

/-- **Both ways of writing** amount to a file being overwritten. -/
theorem writeText_overwritten {before : String} {mode : WriteMode} (tree : fs.IsTree)
    (hread : fs.readText actor path = .ok before)
    (h : fs.writeText actor mode path text = .ok fs') :
    Overwritten actor mode path text fs fs' := by
  cases mode with
  | inPlace => exact writeInPlace_overwritten tree hread (mapError_eq_ok_iff.mp h)
  | atomic => exact writeAtomic_overwritten tree hread h

/-! ### Several writes in a row

A run writes its bundles one after the other. For everything else the writes compose, whichever
files they were.
-/

/-- Whether only the files at some paths were written, as far as the writer and the
    superuser read. -/
structure Touched (actor : Actor) (mode : WriteMode) (paths : List String)
    (fs fs' : FileSystem) : Prop where
  tree : fs'.IsTree
  kept : ∀ who, who = actor ∨ who = .superuser → ∀ q, (∀ p ∈ paths, ¬ fs.SameFile q p) →
    Kept .tooManyLinks (limitError mode) (fs.readBytes who q) (fs'.readBytes who q)
  same : ∀ p q, fs'.SameFile p q → fs.SameFile p q

namespace Touched

variable {mode : WriteMode} {paths : List String}

/-- If nothing was written, then no file was touched, and every path reads as it does. -/
theorem refl (tree : fs.IsTree) : Touched actor mode paths fs fs :=
  ⟨tree, fun _ _ _ _ => .same, fun _ _ h => h⟩

/-- A file that was overwritten is the only one that was touched. -/
theorem of_overwritten (h : Overwritten actor mode path text fs fs') :
    Touched actor mode [path] fs fs' :=
  ⟨h.tree, fun who hwho q hq => h.kept who hwho q (hq path List.mem_cons_self), h.same⟩

/-- If one file was written and then others, then all of these were touched. A path to none of
    them before names none of them in between. -/
theorem cons {fs'' : FileSystem} (h : Touched actor mode [path] fs fs')
    (hrest : Touched actor mode paths fs' fs'') : Touched actor mode (path :: paths) fs fs'' where
  tree := hrest.tree
  kept who hwho q hq := by
    have hfirst := h.kept who hwho q fun p hp => hq p (by
      rw [List.mem_singleton.mp hp]; exact List.mem_cons_self)
    -- what is another file before the writes is one after the first of them
    have hthen := hrest.kept who hwho q fun p hp hsame =>
      hq p (List.mem_cons_of_mem _ hp) (h.same q p hsame)
    exact hfirst.trans hthen
  same p q hpq := h.same p q (hrest.same p q hpq)

end Touched

end SchemaEmbed.FileSystem
