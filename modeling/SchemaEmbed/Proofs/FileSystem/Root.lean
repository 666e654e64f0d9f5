import SchemaEmbed.Proofs.FileSystem.Overwrite

namespace SchemaEmbed.FileSystem

/-!
# Files in the directory where paths begin

A run on files that lie side by side is the simplest there is, and the one that examples are about.
For a path that is one name, all that the general theory says in terms of walks comes down to an
entry of the first directory:

* `isTree_of_root` — one directory with files and symbolic links in it is a tree;
* `IsPlainName` — a path that is one name;
* `walk_plainName` — it leads to the entry of that name;
* `readText_plainName` / `writeText_plainName` — a file is read and written by its name;
* `not_sameFile_plainName` — two names whose entries differ are not those of one file;
* `schemaAndBundle` — two files, of which one is a schema and one is a bundle.
-/

variable {fs fs' : FileSystem} {actor : Actor} {name name' text : String} {n : Nat}

/-- One directory with files and symbolic links in it is a tree, as there is no other directory
    that could have two places. -/
theorem isTree_of_root {entries : List (String × Nat)} (hroot : fs.entries? 0 = some entries)
    (hother : ∀ m, m ≠ 0 → fs.entries? m = none)
    (hentries : ∀ e ∈ entries, e.2 ≠ 0 ∧ e.2 < fs.inodes.length) : fs.IsTree := by
  have hentry {d m : Nat} {s : String} (h : fs.entryIn? d s = some m) :
      d = 0 ∧ m ≠ 0 ∧ m < fs.inodes.length := by
    by_cases hd : d = 0
    · subst hd
      rw [entryIn?, hroot] at h
      exact ⟨rfl, hentries _ (Entries.mem_of_find h)⟩
    · rw [entryIn?, hother d hd] at h
      cases h
  constructor
  · rw [hroot]; rfl
  · exact fun h => (hentry h).2.2
  · exact fun h => (hentry h).2.1 rfl
  · exact fun hd he _ => (hentry hd).1.trans (hentry he).1.symm

/-- Whether a path is one name: it has no slash and no null character, is neither a dot nor two,
    and is not too long. -/
def IsPlainName (name : String) : Prop :=
  partsOf name = [.name name] ∧ isAbsolute name = false ∧ name.isEmpty = false ∧
    name.utf8ByteSize ≤ maxName ∧ name.toList.contains '\x00' = false

instance : DecidablePred IsPlainName := fun _ => inferInstanceAs (Decidable (_ ∧ _))

/-- The superuser finds an entry of the first directory by its name. -/
theorem lookUp_plainName (hname : IsPlainName name) (he : fs.entryIn? 0 name = some n) :
    fs.lookUp .superuser start name = .ok n := by
  obtain ⟨-, -, -, hsize, -⟩ := hname
  obtain ⟨mode, owner, entries, hi⟩ := entries_isSome_iff.mp (entries_of_entry he)
  exact lookUp_eq_ok_iff.mpr ⟨0, [], _, rfl, hi, rfl, hsize, he⟩

/-- A name that is no link's leads to its entry. -/
theorem walk_plainName (hname : IsPlainName name) (he : fs.entryIn? 0 name = some n)
    (hn : fs.link? n = none) (k : Nat) :
    fs.walk .superuser true k (base name) (partsOf name) = .ok [n, 0] := by
  have hlook := lookUp_plainName hname he
  obtain ⟨hparts, habsolute, -⟩ := hname
  rw [hparts, base, habsolute, if_neg Bool.false_ne_true, walk_plain hlook hn, walk_nil]
  rfl

/-- A name that is no symbolic link leads to what stands there, in the first directory. -/
theorem resolve_plainName (hname : IsPlainName name) (he : fs.entryIn? 0 name = some n)
    (hn : fs.link? n = none) : fs.resolve .superuser true name = .ok [n, 0] := by
  have hwalk := walk_plainName hname he hn maxLinks
  obtain ⟨-, -, hempty, hsize, -⟩ := hname
  exact resolve_eq_ok_iff.mpr ⟨hempty, Nat.le_trans hsize (by decide), hwalk⟩

/-- A name ends in the entry of that name, be it a symbolic link or not. -/
theorem entryOf_plainName (hname : IsPlainName name) (he : fs.entryIn? 0 name = some n) :
    fs.entryOf .superuser name = .ok (0, name) := by
  obtain ⟨hparts, habsolute, -⟩ := hname
  refine entryOf_eq_ok_iff.mpr ⟨[], [], hparts, ?_, entries_of_entry he⟩
  rw [base, habsolute, walk_nil]
  rfl

section

variable {mode : Nat} {owner : Actor} (hname : IsPlainName name)
  (he : fs.entryIn? 0 name = some n) (hi : fs.inode? n = some ⟨mode, owner, .file text.toUTF8⟩)

include hname he hi

/-- A file in the first directory is read by its name. -/
theorem readText_plainName : fs.readText .superuser name = .ok text := by
  have hn : (fs.file? n).isSome := file_isSome_iff.mpr ⟨mode, owner, _, hi⟩
  have hres := resolve_plainName hname he (link_of_file hn)
  obtain ⟨-, -, -, -, hnull⟩ := hname
  exact readText_eq_ok_iff.mpr
    ⟨hnull, readBytes_eq_ok_iff.mpr ⟨n, [0], mode, owner, hres, hi, rfl⟩⟩

/-- A file in the first directory is written in place by its name. -/
theorem writeText_plainName (text' : String) :
    fs.writeText .superuser .inPlace name text' = .ok (fs.setBytes n text'.toUTF8) := by
  have hn : (fs.file? n).isSome := file_isSome_iff.mpr ⟨mode, owner, _, hi⟩
  exact mapError_eq_ok_iff.mpr (writeInPlace_eq_ok_iff.mpr
    ⟨n, [0], mode, owner, _, resolve_plainName hname he (link_of_file hn), hi, rfl, rfl⟩)

/-- A file in the first directory is replaced by its name, and keeps its mode. -/
theorem replaceText_plainName (text' : String) :
    fs.writeText .superuser .atomic name text'
      = .ok (fs.replaceEntry 0 name mode .superuser text'.toUTF8) := by
  have hn : (fs.file? n).isSome := file_isSome_iff.mpr ⟨mode, owner, _, hi⟩
  have hres := resolve_plainName hname he (link_of_file hn)
  have hentry := entryOf_plainName hname he
  obtain ⟨dmode, downer, entries, hd⟩ := entries_isSome_iff.mp (entries_of_entry he)
  have hfind : Entries.find? name entries = some n := by
    simpa only [entryIn?, entries?, hd, Option.bind_some] using he
  exact writeAtomic_eq_ok_iff.mpr ⟨n, [0], _, 0, name, hres, hi, hentry,
    ⟨_, entries, n, _, hd, rfl, rfl, rfl, hfind, hi, entries_of_file hn, rfl⟩, rfl⟩

omit hi in
/-- A name that is no symbolic link names what its entry leads to and nothing else. -/
theorem eq_of_names_plainName (hn : fs.link? n = none) {m : Nat} (hm : fs.Names name m) :
    m = n := by
  obtain ⟨-, k, u, hw⟩ := hm
  have hwalk := walk_plainName hname he hn k
  rw [hwalk] at hw
  cases hw
  rfl

end

/-- Names whose entries lead to different files are not names of one file. -/
theorem not_sameFile_plainName {m : Nat} (hname : IsPlainName name)
    (he : fs.entryIn? 0 name = some n) (hn : fs.link? n = none) (hname' : IsPlainName name')
    (he' : fs.entryIn? 0 name' = some m) (hm : fs.link? m = none) (hne : n ≠ m) :
    ¬ fs.SameFile name name' := by
  rintro ⟨l, hl, hl'⟩
  exact hne ((eq_of_names_plainName hname he hn hl).symm.trans
    (eq_of_names_plainName hname' he' hm hl'))

/-! ### Two files

A directory with two files of arbitrary texts. A run on it can be computed, because the trees
before and after a write are of the same form.
-/

/-- A directory with a schema and a bundle in it. -/
def schemaAndBundle (schema bundle : String) : FileSystem :=
  ⟨[⟨0o755, .superuser, .directory [("s.json", 1), ("b.json", 2)]⟩,
    ⟨0o644, .superuser, .file schema.toUTF8⟩, ⟨0o644, .superuser, .file bundle.toUTF8⟩]⟩

variable (schema bundle : String)

/-- The directory with two files is a tree. -/
theorem isTree_schemaAndBundle : (schemaAndBundle schema bundle).IsTree := by
  have hroot : (schemaAndBundle schema bundle).entries? 0
      = some [("s.json", 1), ("b.json", 2)] := rfl
  refine isTree_of_root hroot (fun m hm => ?_) fun e he => ?_
  · rcases m with _ | _ | _ | m
    · exact absurd rfl hm
    all_goals rfl
  · have hlength : (schemaAndBundle schema bundle).inodes.length = 3 := rfl
    simp only [List.mem_cons, List.not_mem_nil, or_false] at he
    rcases he with rfl | rfl <;> simp [hlength]

/-- The schema is read by its name. -/
theorem readText_schema :
    (schemaAndBundle schema bundle).readText .superuser "s.json" = .ok schema :=
  readText_plainName (by decide) (show _ = some 1 from rfl) rfl

/-- The bundle is read by its name. -/
theorem readText_bundle :
    (schemaAndBundle schema bundle).readText .superuser "b.json" = .ok bundle :=
  readText_plainName (by decide) (show _ = some 2 from rfl) rfl

/-- Writing the bundle in place changes its text and nothing else. -/
theorem writeText_bundle (text : String) :
    (schemaAndBundle schema bundle).writeText .superuser .inPlace "b.json" text
      = .ok (schemaAndBundle schema text) :=
  writeText_plainName (by decide) (show _ = some 2 from rfl) rfl text

/-- Writing the schema in place, as happens where it is a bundle itself, changes its text and
    nothing else. -/
theorem writeText_schema (text : String) :
    (schemaAndBundle schema bundle).writeText .superuser .inPlace "s.json" text
      = .ok (schemaAndBundle text bundle) :=
  writeText_plainName (by decide) (show _ = some 1 from rfl) rfl text

/-- The schema and the bundle are two files, though they may hold the same. -/
theorem not_sameFile_schemaAndBundle :
    ¬ (schemaAndBundle schema bundle).SameFile "s.json" "b.json" :=
  not_sameFile_plainName (by decide) (show _ = some 1 from rfl) rfl (by decide)
    (show _ = some 2 from rfl) rfl (by decide)

end SchemaEmbed.FileSystem
