import SchemaEmbed.Proofs.Entries
import SchemaEmbed.Proofs.FileSystem.Tree

namespace SchemaEmbed.FileSystem

/-!
# Updates of a tree

Every operation on the tree of files is made of two changes: something under one number is changed,
or something is added under the first number that is new. What these do to what stands under each
number, and that a tree stays one:

* `inode_modify` / `inode_add` — one number changes, or a new one is there;
* `entry_modifyEntries_put` — one entry changes;
* `IsTree.of_entries` — a tree is a matter of its entries;
* `IsTree.putEntry` — a new entry for what is no directory, or is nowhere else, keeps the tree.

All statements are equations for a look-up after the change in terms of look-ups before it. None of
them says how the list of numbers is built.
-/

variable {fs : FileSystem}

/-! ### Numbers -/

/-- After one number was changed, what stands under it is changed, and what stands under another
    is as before. -/
theorem inode_modify (n m : Nat) (f : Inode → Inode) :
    (fs.modify n f).inode? m = if n = m then (fs.inode? m).map f else fs.inode? m := by
  simp only [modify, inode?, List.getElem?_modify]
  by_cases h : n = m
  · simp [h]
  · simp [h]

/-- No number comes or goes when what stands under one is changed. -/
@[simp] theorem length_modify (n : Nat) (f : Inode → Inode) :
    (fs.modify n f).inodes.length = fs.inodes.length := by
  simp [modify]

/-- No number comes or goes when the entries of a directory are changed. -/
@[simp] theorem length_modifyEntries (n : Nat)
    (f : List (String × Nat) → List (String × Nat)) :
    (fs.modifyEntries n f).inodes.length = fs.inodes.length :=
  length_modify n _

/-- After something was added, it stands under the first number that was new, and what was there
    stays. -/
theorem inode_add (i : Inode) (m : Nat) :
    (fs.add i).2.inode? m = if m = fs.inodes.length then some i else fs.inode? m := by
  simp only [add, inode?, List.getElem?_append]
  by_cases h : m = fs.inodes.length
  · simp [h]
  · by_cases hlt : m < fs.inodes.length
    · simp [h, hlt]
    · have hsub : m - fs.inodes.length ≠ 0 := by omega
      simp [h, hlt, hsub]

/-! ### Entries

The entries of directories are where the structure of a tree is, so the equations are said of
look-ups of entries as well.
-/

/-- After the entries of one directory were changed, those of all others are as before. -/
theorem entries_modifyEntries (n m : Nat) (f : List (String × Nat) → List (String × Nat)) :
    (fs.modifyEntries n f).entries? m
      = if n = m then (fs.entries? m).map f else fs.entries? m := by
  unfold entries? modifyEntries
  rw [inode_modify]
  by_cases h : n = m
  · rw [if_pos h, if_pos h]
    rcases fs.inode? m with _ | ⟨mode, owner, file | entries | target⟩ <;> rfl
  · rw [if_neg h, if_neg h]

/-- Files stay what they are when entries are changed, also where the number is no directory. -/
@[simp] theorem file_modifyEntries (fs : FileSystem) (n m : Nat)
    (f : List (String × Nat) → List (String × Nat)) :
    (fs.modifyEntries n f).file? m = fs.file? m := by
  unfold file? modifyEntries
  rw [inode_modify]
  by_cases h : n = m
  · rw [if_pos h]
    rcases fs.inode? m with _ | ⟨mode, owner, file | entries | target⟩ <;> rfl
  · rw [if_neg h]

/-- Symbolic links stay what they are when entries are changed. -/
@[simp] theorem link_modifyEntries (fs : FileSystem) (n m : Nat)
    (f : List (String × Nat) → List (String × Nat)) :
    (fs.modifyEntries n f).link? m = fs.link? m := by
  unfold link? modifyEntries
  rw [inode_modify]
  by_cases h : n = m
  · rw [if_pos h]
    rcases fs.inode? m with _ | ⟨mode, owner, file | entries | target⟩ <;> rfl
  · rw [if_neg h]

/-- After an entry was set it leads to its number, and every other entry leads where it did. -/
theorem entry_modifyEntries_put {d : Nat} (hd : (fs.entries? d).isSome) (name : String)
    (n e : Nat) (s : String) :
    (fs.modifyEntries d (Entries.put name n)).entryIn? e s
      = if d = e ∧ name = s then some n else fs.entryIn? e s := by
  unfold entryIn?
  rw [entries_modifyEntries]
  by_cases h : d = e
  · subst h
    obtain ⟨entries, he⟩ := Option.isSome_iff_exists.mp hd
    simp [he, Entries.find_put]
  · simp [h]

/-- After the entries of one name were removed from a directory, that name is not there, and
    every other entry is. -/
theorem entry_modifyEntries_filter (d : Nat) (name : String) (e : Nat) (s : String) :
    (fs.modifyEntries d fun entries => entries.filter fun x => x.1 != name).entryIn? e s
      = if d = e ∧ s = name then none else fs.entryIn? e s := by
  unfold entryIn?
  rw [entries_modifyEntries]
  by_cases h : d = e
  · subst h
    cases he : fs.entries? d with
    | none => simp
    | some entries => simp [Entries.find_filter_ne]
  · simp [h]

/-! ### Trees stay trees

Removing entries and changing what is no directory can never hurt. An entry that is added could
give a directory a second place or lead back to the top, and this is what the hypotheses exclude.
-/

/-- A tree with some of its entries, in which no number went away and what is no directory
    became none, is a tree. -/
theorem IsTree.of_entries {fs' : FileSystem} (tree : fs.IsTree)
    (hlen : fs.inodes.length ≤ fs'.inodes.length)
    (hentry : ∀ d s n, fs'.entryIn? d s = some n → fs.entryIn? d s = some n)
    (hdir : ∀ n, n < fs.inodes.length → (fs'.entries? n).isSome = (fs.entries? n).isSome) :
    fs'.IsTree where
  root := (hdir 0 (lt_length_of_entries tree.root)).trans tree.root
  closed h := Nat.lt_of_lt_of_le (tree.closed (hentry _ _ _ h)) hlen
  rootless h := tree.rootless (hentry _ _ _ h)
  parent hd he hn :=
    tree.parent (hentry _ _ _ hd) (hentry _ _ _ he)
      ((hdir _ (tree.closed (hentry _ _ _ hd))).symm.trans hn)

/-- A tree in which something is changed that is no entry, as when a file is written or a mode is
    changed, is a tree. -/
theorem IsTree.modify (tree : fs.IsTree) (n : Nat) (f : Inode → Inode)
    (hf : ∀ d, (fs.modify n f).entries? d = fs.entries? d) : (fs.modify n f).IsTree := by
  refine tree.of_entries (by simp) (fun d s m h => ?_) fun m _ => by rw [hf]
  simpa only [entryIn?, hf] using h

/-- What is added has the entries that it brings along, and all others have theirs. -/
theorem entries_add (i : Inode) (m : Nat) :
    (fs.add i).2.entries? m
      = if m = fs.inodes.length then (⟨[i]⟩ : FileSystem).entries? 0 else fs.entries? m := by
  unfold entries?
  rw [inode_add]
  by_cases h : m = fs.inodes.length
  · rw [if_pos h, if_pos h]; rfl
  · rw [if_neg h, if_neg h]

/-- Something new without entries of its own keeps a tree, since nothing leads to it yet. -/
theorem IsTree.add (tree : fs.IsTree) {i : Inode}
    (hi : ∀ s, (⟨[i]⟩ : FileSystem).entryIn? 0 s = none) : (fs.add i).2.IsTree := by
  refine tree.of_entries (by simp [FileSystem.add]) (fun d s n h => ?_) fun n hn => ?_
  · unfold entryIn? at h
    rw [entries_add] at h
    by_cases hd : d = fs.inodes.length
    · rw [if_pos hd] at h
      rw [← entryIn?, hi] at h
      cases h
    · rw [if_neg hd] at h; exact h
  · rw [entries_add, if_neg (Nat.ne_of_lt hn)]

/-- **One more entry** keeps a tree, if it leads to no directory or to one that has no
    entry yet. -/
theorem IsTree.putEntry (tree : fs.IsTree) {d n : Nat} (name : String)
    (hd : (fs.entries? d).isSome) (hn : n < fs.inodes.length) (hpos : n ≠ 0)
    (hnew : (fs.entries? n).isSome → ∀ e s, fs.entryIn? e s ≠ some n) :
    (fs.modifyEntries d (Entries.put name n)).IsTree := by
  have hentry := entry_modifyEntries_put hd name n
  -- directories are the same as before
  have hdir (m : Nat) : ((fs.modifyEntries d (Entries.put name n)).entries? m).isSome
      = (fs.entries? m).isSome := by
    rw [entries_modifyEntries]
    split
    · simp
    · rfl
  constructor
  · rw [hdir]; exact tree.root
  · intro e s m h
    rw [hentry] at h
    rw [length_modifyEntries]
    split at h
    · cases h; exact hn
    · exact tree.closed h
  · intro e s h
    rw [hentry] at h
    split at h
    · cases h; exact hpos rfl
    · exact tree.rootless h
  · -- of two entries for one directory, both or none are the new one
    intro e e' s s' m h h' hm
    rw [hdir] at hm
    rw [hentry] at h h'
    split at h
    · next hs =>
      cases h
      split at h'
      · next hs' => rw [← hs.1, ← hs'.1]
      · exact absurd h' (hnew hm e' s')
    · split at h'
      · cases h'
        exact absurd h (hnew hm e s)
      · exact tree.parent h h' hm

/-- The tree with nothing in it but the first directory is a tree. -/
theorem empty_isTree : empty.IsTree := by
  have hentry (d : Nat) (s : String) : empty.entryIn? d s = none := by
    cases d with
    | zero => rfl
    | succ d => rfl
  constructor
  · rfl
  · intro d s n h; rw [hentry] at h; cases h
  · intro d s h; rw [hentry] at h; cases h
  · intro d e s r n h; rw [hentry] at h; cases h

end SchemaEmbed.FileSystem
