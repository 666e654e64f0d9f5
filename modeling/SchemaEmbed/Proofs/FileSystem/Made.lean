import SchemaEmbed.Proofs.FileSystem.Overwrite

namespace SchemaEmbed.FileSystem

/-!
# Trees that are made

A run begins in a tree that others have made, with directories, links and modes of their choice.
All that a proof needs to know about it is that it is a tree. That nothing else can come about is
shown of the operations:

* `Made` — the trees that the operations make, beginning with nothing;
* `IsTree.addInode` / `IsTree.addName` / `IsTree.remove` / … — each operation keeps a tree;
* `putFile_keeps` — what directories, modes, new files and writes keep, a file that is put with its
  directories keeps as well;
* `Made.isTree` — so all of them are trees.

So a theorem with the hypothesis that a tree is one holds of everything that the operations make,
and the hypothesis is never an assumption about a run.
-/

variable {fs fs' : FileSystem} {path target : String}

/-- The trees that the operations make, beginning with nothing. An operation that fails makes no
    tree. -/
inductive Made : FileSystem → Prop
  | empty : Made empty
  | putFile {fs fs' : FileSystem} {path : String} {bytes : ByteArray} {mode : Nat}
      (h : Made fs) (hop : fs.putFile path bytes mode = .ok fs') : Made fs'
  | makeDirectory {fs fs' : FileSystem} {path : String} (h : Made fs)
      (hop : fs.makeDirectory path = .ok fs') : Made fs'
  | makeLink {fs fs' : FileSystem} {path target : String} (h : Made fs)
      (hop : fs.makeLink path target = .ok fs') : Made fs'
  | addName {fs fs' : FileSystem} {path target : String} (h : Made fs)
      (hop : fs.addName path target = .ok fs') : Made fs'
  | changeMode {fs fs' : FileSystem} {path : String} {mode : Nat} (h : Made fs)
      (hop : fs.changeMode path mode = .ok fs') : Made fs'
  | remove {fs fs' : FileSystem} {path : String} (h : Made fs)
      (hop : fs.remove path = .ok fs') : Made fs'
  | writeText {fs fs' : FileSystem} {actor : Actor} {mode : WriteMode} {path text : String}
      (h : Made fs) (hop : fs.writeText actor mode path text = .ok fs') : Made fs'

/-! ### Each operation keeps a tree -/

/-- A new entry keeps a tree, if what it leads to is there, is not the top, and is no directory
    that has an entry already. -/
theorem IsTree.addEntry (tree : fs.IsTree) {d n : Nat} {name : String}
    (h : fs.addEntry d name n = .ok fs') (hn : n < fs.inodes.length) (hpos : n ≠ 0)
    (hnew : (fs.entries? n).isSome → ∀ e s, fs.entryIn? e s ≠ some n) : fs'.IsTree := by
  unfold FileSystem.addEntry at h
  split at h
  · cases h
  · next entries hd =>
    split at h
    · cases h
    · split at h
      · cases h
      · cases h
        exact tree.putEntry name (by rw [hd]; rfl) hn hpos hnew

/-- Something new without entries of its own keeps a tree, with the entry that leads to it. -/
theorem IsTree.addInode (tree : fs.IsTree) {i : Inode}
    (hi : ∀ s, (⟨[i]⟩ : FileSystem).entryIn? 0 s = none)
    (h : fs.addInode path i = .ok fs') : fs'.IsTree := by
  obtain ⟨⟨d, name⟩, -, h⟩ := bind_eq_ok_iff.mp h
  refine (tree.add hi).addEntry h (by simp [FileSystem.add]) ?_ fun _ e s hes => ?_
  · exact Nat.ne_of_gt (Nat.zero_lt_of_lt (lt_length_of_entries tree.root))
  · -- no entry leads to a number that was not there yet
    unfold entryIn? at hes
    rw [entries_add] at hes
    split at hes
    · rw [← entryIn?, hi] at hes; cases hes
    · exact absurd (tree.closed hes) (Nat.lt_irrefl _)

/-- A new directory keeps a tree, since it is empty. -/
theorem IsTree.makeDirectory (tree : fs.IsTree) (h : fs.makeDirectory path = .ok fs') :
    fs'.IsTree :=
  tree.addInode (fun _ => rfl) h

/-- A new symbolic link keeps a tree. -/
theorem IsTree.makeLink (tree : fs.IsTree) (h : fs.makeLink path target = .ok fs') :
    fs'.IsTree :=
  tree.addInode (fun _ => rfl) h

/-- A path leads to something that is there. -/
theorem IsTree.lt_length_of_resolve (tree : fs.IsTree) {actor : Actor} {last : Bool} {n : Nat}
    {u : Trail} (h : fs.resolve actor last path = .ok (n :: u)) : n < fs.inodes.length := by
  unfold resolve at h
  split at h
  · cases h
  · split at h
    · cases h
    · exact (walk_isTrail (isTrail_base path) h).lt_length tree

/-- One more name keeps a tree. Directories are refused one, which is what makes the tree a tree. -/
theorem IsTree.addName (tree : fs.IsTree) (h : fs.addName path target = .ok fs') :
    fs'.IsTree := by
  obtain ⟨t, hr, h⟩ := bind_eq_ok_iff.mp h
  cases t with
  | nil => cases h
  | cons n u =>
    simp only at h
    split at h
    · cases h
    · next hdir =>
      obtain ⟨⟨d, name⟩, -, h⟩ := bind_eq_ok_iff.mp h
      refine tree.addEntry h (tree.lt_length_of_resolve hr) ?_ fun hdir' => absurd hdir' hdir
      -- the top of the tree is a directory
      rintro rfl
      exact hdir tree.root

/-- No entry is changed when a mode is. -/
theorem entries_setMode (n mode d : Nat) : (fs.setMode n mode).entries? d = fs.entries? d := by
  unfold entries? setMode
  rw [inode_modify]
  by_cases h : n = d
  · rw [if_pos h]
    rcases fs.inode? d with _ | ⟨mode', owner, file | entries | target⟩ <;> rfl
  · rw [if_neg h]

/-- A change of a mode keeps a tree. -/
theorem IsTree.setMode (tree : fs.IsTree) (n mode : Nat) : (fs.setMode n mode).IsTree :=
  tree.modify n _ (entries_setMode n mode)

/-- A change of the mode of what a path leads to keeps a tree. -/
theorem IsTree.changeMode (tree : fs.IsTree) {mode : Nat}
    (h : fs.changeMode path mode = .ok fs') : fs'.IsTree := by
  obtain ⟨t, -, h⟩ := bind_eq_ok_iff.mp h
  cases t with
  | nil => cases h
  | cons n u =>
    cases h
    exact tree.setMode n mode

/-- An entry that is removed keeps a tree, though what was below it may be reached by nothing. -/
theorem IsTree.remove (tree : fs.IsTree) (h : fs.remove path = .ok fs') : fs'.IsTree := by
  obtain ⟨t, -, h⟩ := bind_eq_ok_iff.mp h
  obtain ⟨⟨d, name⟩, -, h⟩ := bind_eq_ok_iff.mp h
  cases h
  refine tree.of_entries (by simp) (fun e s n hes => ?_) fun n _ => ?_
  · rw [entry_modifyEntries_filter] at hes
    split at hes
    · cases hes
    · exact hes
  · rw [entries_modifyEntries]
    split
    · simp
    · rfl

/-- A write in place keeps a tree, since it changes no entry. -/
theorem IsTree.writeInPlace (tree : fs.IsTree) {actor : Actor} {bytes : ByteArray}
    (h : fs.writeInPlace actor path bytes = .ok fs') : fs'.IsTree := by
  obtain ⟨n, u, mode, owner, old, -, hi, -, rfl⟩ := writeInPlace_eq_ok_iff.mp h
  exact tree.modify n _ (entries_setBytes hi)

/-- A replacement keeps a tree: it is one entry that leads to a new file. -/
theorem IsTree.writeAtomic (tree : fs.IsTree) {actor : Actor} {bytes : ByteArray}
    (h : fs.writeAtomic actor path bytes = .ok fs') : fs'.IsTree := by
  obtain ⟨n, u, old, d, name, -, -, he, -, rfl⟩ := writeAtomic_eq_ok_iff.mp h
  obtain ⟨parts, around, -, -, hd⟩ := entryOf_eq_ok_iff.mp he
  exact tree.replaceEntry hd

/-- A write keeps a tree, in whichever way it is made. -/
theorem IsTree.writeText (tree : fs.IsTree) {actor : Actor} {mode : WriteMode} {text : String}
    (h : fs.writeText actor mode path text = .ok fs') : fs'.IsTree := by
  cases mode with
  | inPlace => exact tree.writeInPlace (mapError_eq_ok_iff.mp h)
  | atomic => exact tree.writeAtomic h

/-! ### Files with their directories

Putting a file is the one operation that is made of others. It is proved for any property that
these keep, so that the same lemma serves for trees and for sound ones.
-/

section

variable {P : FileSystem → Prop}
  (hdirectory : ∀ {fs fs' : FileSystem} {path : String}, P fs →
    fs.makeDirectory path = .ok fs' → P fs')
  (hmode : ∀ {fs fs' : FileSystem} {path : String} {mode : Nat}, P fs →
    fs.changeMode path mode = .ok fs' → P fs')
  (hwrite : ∀ {fs fs' : FileSystem} {path : String} {bytes : ByteArray}, P fs →
    fs.writeInPlace .superuser path bytes = .ok fs' → P fs')
  (hfile : ∀ {fs fs' : FileSystem} {path : String} {bytes : ByteArray}, P fs →
    fs.addInode path ⟨fileMode, .superuser, .file bytes⟩ = .ok fs' → P fs')

include hdirectory in
/-- What new directories keep is kept by all the directories that a path leads through. -/
theorem makeParents_keeps (hfs : P fs) (h : fs.makeParents path = .ok fs') : P fs' := by
  unfold FileSystem.makeParents at h
  generalize parentPaths path = parents at h
  -- on the directories that are still to be looked for, in whatever tree the others left
  induction parents generalizing fs with
  | nil => cases h; exact hfs
  | cons parent parents ih =>
    rw [List.foldlM_cons] at h
    obtain ⟨fs₁, hstep, h⟩ := bind_eq_ok_iff.mp h
    refine ih ?_ h
    split at hstep
    · obtain ⟨⟨⟩, -, hstep⟩ := bind_eq_ok_iff.mp hstep
      cases hstep
      exact hfs
    · exact hdirectory hfs hstep

include hmode hwrite hfile in
/-- What new files, writes and modes keep is kept by a file that is made or written and then
    gets its mode. -/
theorem fillFile_keeps (hfs : P fs) {bytes : ByteArray} {mode : Nat}
    (h : (match fs.resolve .superuser true path with
      | .ok _ => do
        let fs ← fs.writeInPlace .superuser path bytes
        fs.changeMode path mode
      | .error e =>
        if e = OsError.notFound then do
          let fs ← fs.addInode path ⟨fileMode, .superuser, .file bytes⟩
          fs.changeMode path mode
        else do
          let fs : FileSystem ← throw e
          fs.changeMode path mode) = .ok fs') : P fs' := by
  split at h
  · obtain ⟨fs₁, hstep, h⟩ := bind_eq_ok_iff.mp h
    exact hmode (hwrite hfs hstep) h
  · split at h
    · obtain ⟨fs₁, hstep, h⟩ := bind_eq_ok_iff.mp h
      exact hmode (hfile hfs hstep) h
    · obtain ⟨fs₁, ⟨⟩, -⟩ := bind_eq_ok_iff.mp h

include hdirectory hmode hwrite hfile in
/-- **What the parts keep** is kept by a file that is put with its directories. -/
theorem putFile_keeps (hfs : P fs) {bytes : ByteArray} {mode : Nat}
    (h : fs.putFile path bytes mode = .ok fs') : P fs' := by
  obtain ⟨fs₁, hparents, h⟩ := bind_eq_ok_iff.mp h
  have hfs₁ := makeParents_keeps hdirectory hfs hparents
  simp only at h
  split at h
  · obtain ⟨fs₂, hopen, h⟩ := bind_eq_ok_iff.mp h
    exact fillFile_keeps hmode hwrite hfile (hmode hfs₁ hopen) h
  · exact fillFile_keeps hmode hwrite hfile hfs₁ h

end

/-- A file that is put with its directories keeps a tree. -/
theorem IsTree.putFile (tree : fs.IsTree) {bytes : ByteArray} {mode : Nat}
    (h : fs.putFile path bytes mode = .ok fs') : fs'.IsTree :=
  putFile_keeps IsTree.makeDirectory (fun tree h => tree.changeMode h)
    (fun tree h => tree.writeInPlace h)
    (fun tree h => tree.addInode (fun _ => rfl) h) tree h

/-- **All that is made is a tree.** The induction is on the operations that made it. -/
theorem Made.isTree (h : Made fs) : fs.IsTree := by
  induction h with
  | empty => exact empty_isTree
  | putFile _ hop ih => exact ih.putFile hop
  | makeDirectory _ hop ih => exact ih.makeDirectory hop
  | makeLink _ hop ih => exact ih.makeLink hop
  | addName _ hop ih => exact ih.addName hop
  | changeMode _ hop ih => exact ih.changeMode hop
  | remove _ hop ih => exact ih.remove hop
  | writeText _ hop ih => exact ih.writeText hop

end SchemaEmbed.FileSystem
