import SchemaEmbed.FileSystem.Listing
import SchemaEmbed.Proofs.FileSystem.Made

namespace SchemaEmbed.FileSystem

/-!
# Sound trees and their listings

A listing goes down the tree of directories to a depth that is given. It shows everything only if
no way down is longer, and for this the tree has to be finite in a stronger sense than having
finitely many numbers: no directory may be below itself.

* `Sound` — a tree whose directories have different names for their entries; what is made is one
  (`Made.sound`);
* `Reached` — what directories lead to from the top. A directory that was removed keeps its number,
  but nothing leads there;
* `IsTrail.nodup` — no directory is twice on the way down, and so `IsTrail.length_le`: a way down
  is no longer than there are numbers;
* `listing_eq_below` — so a listing shows all that is reached: to look deeper shows no more.
-/

variable {fs fs' : FileSystem} {actor : Actor} {path : String}

/-- Whether directories make a tree, and the names in each of them are different. -/
structure Sound (fs : FileSystem) : Prop extends fs.IsTree where
  distinct : ∀ {d entries}, fs.entries? d = some entries → (Entries.keys entries).Nodup

/-- What is among the entries of a directory is found there under its name, since names are
    different. -/
theorem Sound.entry_of_mem (h : fs.Sound) {d n : Nat} {s : String} {entries : Entries Nat}
    (hd : fs.entries? d = some entries) (he : (s, n) ∈ entries) : fs.entryIn? d s = some n := by
  rw [entryIn?, hd]
  exact Entries.find_of_mem (h.distinct hd) he

/-! ### What is made is sound

Each operation changes one directory by a change that keeps names different, or none. Where it
fails there is nothing to show.
-/

/-- Whether a change of entries keeps their names different. -/
def KeepsDistinct (f : List (String × Nat) → List (String × Nat)) : Prop :=
  ∀ entries, (Entries.keys entries).Nodup → (Entries.keys (f entries)).Nodup

/-- An entry that is put keeps names different. -/
theorem keepsDistinct_put (name : String) (n : Nat) : KeepsDistinct (Entries.put name n) :=
  fun _ h => Entries.keys_put_nodup h name n

/-- Entries that are left over after some were removed have different names. -/
theorem keepsDistinct_filter (p : String × Nat → Bool) : KeepsDistinct (List.filter p) :=
  fun _ h => h.sublist (List.filter_sublist.map Prod.fst)

/-- A tree is sound if each directory of it is empty or has come from a directory of a sound tree
    by a change that keeps names different. -/
theorem Sound.of_entries (h : fs.Sound) (tree : fs'.IsTree)
    (hentries : ∀ d entries, fs'.entries? d = some entries → entries = [] ∨
      ∃ f before, KeepsDistinct f ∧ fs.entries? d = some before ∧ entries = f before) :
    fs'.Sound := by
  refine ⟨tree, fun {d entries} hd => ?_⟩
  rcases hentries d entries hd with rfl | ⟨f, before, hf, hbefore, rfl⟩
  · exact List.nodup_nil
  · exact hf before (h.distinct hbefore)

/-- Entries of one directory that are changed so that names stay different keep a tree sound, if
    it stays a tree. -/
theorem Sound.modifyEntries (h : fs.Sound) {d : Nat}
    {f : List (String × Nat) → List (String × Nat)} (hf : KeepsDistinct f)
    (tree : (fs.modifyEntries d f).IsTree) : (fs.modifyEntries d f).Sound := by
  refine h.of_entries tree fun e entries he => .inr ?_
  rw [entries_modifyEntries] at he
  split at he
  · obtain ⟨before, hbefore, rfl⟩ := Option.map_eq_some_iff.mp he
    exact ⟨f, before, hf, hbefore, rfl⟩
  · exact ⟨id, entries, fun _ h => h, he, rfl⟩

/-- A tree with the same entries as a sound one is sound. -/
theorem Sound.of_entries_eq (h : fs.Sound) (tree : fs'.IsTree)
    (hentries : ∀ d, fs'.entries? d = fs.entries? d) : fs'.Sound :=
  h.of_entries tree fun d entries hd =>
    .inr ⟨id, entries, fun _ h => h, (hentries d).symm.trans hd, rfl⟩

/-- A new file in place of an entry keeps a tree sound. -/
theorem Sound.replaceEntry (h : fs.Sound) {d mode : Nat} {name : String} {owner : Actor}
    {bytes : ByteArray} (hd : (fs.entries? d).isSome) :
    (fs.replaceEntry d name mode owner bytes).Sound := by
  refine h.of_entries (h.toIsTree.replaceEntry hd) fun e entries he => .inr ?_
  rw [FileSystem.replaceEntry, entries_modifyEntries, entries_add] at he
  by_cases hnew : e = fs.inodes.length
  · -- the new file is no directory
    rw [if_pos hnew] at he
    split at he <;> cases he
  · rw [if_neg hnew] at he
    split at he
    · obtain ⟨before, hbefore, rfl⟩ := Option.map_eq_some_iff.mp he
      exact ⟨_, before, keepsDistinct_put name _, hbefore, rfl⟩
    · exact ⟨id, entries, fun _ h => h, he, rfl⟩

/-- A new entry keeps a tree sound, if it stays a tree. -/
theorem Sound.addEntry (h : fs.Sound) {d n : Nat} {name : String}
    (hadd : fs.addEntry d name n = .ok fs') (tree : fs'.IsTree) : fs'.Sound := by
  unfold FileSystem.addEntry at hadd
  split at hadd
  · cases hadd
  · split at hadd
    · cases hadd
    · split at hadd
      · cases hadd
      · cases hadd
        exact h.modifyEntries (keepsDistinct_put name n) tree

/-- Something new that has no entries yet keeps a tree sound. -/
theorem Sound.addInode (h : fs.Sound) {i : Inode}
    (hi : (⟨[i]⟩ : FileSystem).entries? 0 = none ∨ (⟨[i]⟩ : FileSystem).entries? 0 = some [])
    (hadd : fs.addInode path i = .ok fs') : fs'.Sound := by
  have hnone (s : String) : (⟨[i]⟩ : FileSystem).entryIn? 0 s = none := by
    unfold entryIn?
    rcases hi with hi | hi <;> rw [hi] <;> rfl
  have tree := h.toIsTree.addInode hnone hadd
  obtain ⟨⟨d, name⟩, -, hadd⟩ := bind_eq_ok_iff.mp hadd
  refine (h.of_entries (h.toIsTree.add hnone) fun e entries he => ?_ :
    (fs.add i).2.Sound).addEntry hadd tree
  rw [entries_add] at he
  split at he
  · rcases hi with hi | hi <;> rw [hi] at he <;> cases he
    exact .inl rfl
  · exact .inr ⟨id, entries, fun _ h => h, he, rfl⟩

/-- One more name for a file keeps a tree sound. -/
theorem Sound.addName (h : fs.Sound) {target : String} (hadd : fs.addName path target = .ok fs') :
    fs'.Sound := by
  have tree := h.toIsTree.addName hadd
  obtain ⟨t, -, hadd⟩ := bind_eq_ok_iff.mp hadd
  cases t with
  | nil => cases hadd
  | cons n u =>
    simp only at hadd
    split at hadd
    · cases hadd
    · obtain ⟨⟨d, name⟩, -, hadd⟩ := bind_eq_ok_iff.mp hadd
      exact h.addEntry hadd tree

/-- Another mode keeps a tree sound. -/
theorem Sound.changeMode (h : fs.Sound) {mode : Nat} (hop : fs.changeMode path mode = .ok fs') :
    fs'.Sound := by
  have tree := h.toIsTree.changeMode hop
  obtain ⟨t, -, hop⟩ := bind_eq_ok_iff.mp hop
  cases t with
  | nil => cases hop
  | cons n u =>
    cases hop
    exact h.of_entries_eq tree fun d => entries_setMode n mode d

/-- One entry less keeps a tree sound. -/
theorem Sound.remove (h : fs.Sound) (hop : fs.remove path = .ok fs') : fs'.Sound := by
  have tree := h.toIsTree.remove hop
  obtain ⟨t, -, hop⟩ := bind_eq_ok_iff.mp hop
  obtain ⟨⟨d, name⟩, -, hop⟩ := bind_eq_ok_iff.mp hop
  cases hop
  exact h.modifyEntries (keepsDistinct_filter _) tree

/-- A write in place keeps a tree sound. -/
theorem Sound.writeInPlace (h : fs.Sound) {bytes : ByteArray}
    (hop : fs.writeInPlace actor path bytes = .ok fs') : fs'.Sound := by
  have tree := h.toIsTree.writeInPlace hop
  obtain ⟨n, u, mode, owner, old, -, hi, -, rfl⟩ := writeInPlace_eq_ok_iff.mp hop
  exact h.of_entries_eq tree (entries_setBytes hi)

/-- A replacement keeps a tree sound. -/
theorem Sound.writeAtomic (h : fs.Sound) {bytes : ByteArray}
    (hop : fs.writeAtomic actor path bytes = .ok fs') : fs'.Sound := by
  obtain ⟨n, u, old, d, name, -, -, he, -, rfl⟩ := writeAtomic_eq_ok_iff.mp hop
  obtain ⟨parts, around, -, -, hd⟩ := entryOf_eq_ok_iff.mp he
  exact h.replaceEntry hd

/-- A write keeps a tree sound, in whichever way it is made. -/
theorem Sound.writeText (h : fs.Sound) {mode : WriteMode} {text : String}
    (hop : fs.writeText actor mode path text = .ok fs') : fs'.Sound := by
  cases mode with
  | inPlace => exact h.writeInPlace (mapError_eq_ok_iff.mp hop)
  | atomic => exact h.writeAtomic hop

/-- **All that is made is sound.** The induction is on the operations, with one of the lemmas
    above for each. -/
theorem Made.sound (h : Made fs) : fs.Sound := by
  have hdirectory {fs fs' : FileSystem} {path : String} (h : fs.Sound)
      (hop : fs.makeDirectory path = .ok fs') : fs'.Sound := h.addInode (.inr rfl) hop
  induction h with
  | empty =>
    refine ⟨empty_isTree, fun {d entries} hd => ?_⟩
    cases d with
    | zero => cases hd; exact List.nodup_nil
    | succ d => cases hd
  | putFile _ hop ih =>
    exact putFile_keeps hdirectory (fun h hop => h.changeMode hop) (fun h hop => h.writeInPlace hop)
      (fun h hop => h.addInode (.inl rfl) hop) ih hop
  | makeDirectory _ hop ih => exact hdirectory ih hop
  | makeLink _ hop ih => exact ih.addInode (.inl rfl) hop
  | addName _ hop ih => exact ih.addName hop
  | changeMode _ hop ih => exact ih.changeMode hop
  | remove _ hop ih => exact ih.remove hop
  | writeText _ hop ih => exact ih.writeText hop

/-! ### Ways down -/

/-- Whether directories lead to a number from the top of the tree. -/
def Reached (fs : FileSystem) (n : Nat) : Prop := ∃ r, fs.IsTrail (n :: r)

/-- The first directory is reached without a step. -/
theorem reached_root (fs : FileSystem) : fs.Reached 0 := ⟨[], rfl⟩

/-- What has an entry in a directory that is reached is reached as well. -/
theorem Reached.entry {d n : Nat} {s : String} (h : fs.Reached d)
    (he : fs.entryIn? d s = some n) : fs.Reached n := by
  obtain ⟨r, hr⟩ := h
  exact ⟨d :: r, hr.cons he⟩

/-- All places on a way down are reached by a part of it, the lower end of the list being cut
    off. -/
theorem IsTrail.of_suffix {t u : Trail} (ht : fs.IsTrail t) (h : u <:+ t) : fs.IsTrail u := by
  induction t with
  | nil => rw [List.suffix_nil.mp h]; trivial
  | cons n r ih =>
    rcases List.suffix_cons_iff.mp h with rfl | h
    · exact ht
    · exact ih ht.tail h

/-- What is on the way down to a place, other than the place itself, is a directory. -/
theorem IsTrail.entries_of_mem {n d : Nat} {r : Trail} (ht : fs.IsTrail (n :: r)) (hd : d ∈ r) :
    (fs.entries? d).isSome := by
  induction r generalizing n with
  | nil => cases hd
  | cons e r ih =>
    rcases List.mem_cons.mp hd with rfl | hd
    · obtain ⟨s, hs⟩ := ht.1
      exact entries_of_entry hs
    · exact ih ht.2 hd

/-- **No directory is twice on the way down.** Otherwise there would be two ways down to it, of
    which one is a part of the other. -/
theorem IsTrail.nodup (tree : fs.IsTree) {n : Nat} {r : Trail} (ht : fs.IsTrail (n :: r))
    (hn : (fs.entries? n).isSome) : (n :: r).Nodup := by
  induction r generalizing n with
  | nil => exact List.pairwise_singleton _ n
  | cons d r ih =>
    obtain ⟨s, hs⟩ := ht.1
    refine List.nodup_cons.mpr ⟨fun hmem => ?_, ih ht.2 (entries_of_entry hs)⟩
    -- a second time would be a shorter way to the same directory
    obtain ⟨before, after, happend⟩ := List.append_of_mem hmem
    have hshort : fs.IsTrail (n :: after) := ht.of_suffix (.trans ⟨before, happend.symm⟩
      (List.suffix_cons n _))
    have hlen := congrArg List.length (ht.unique tree hn hshort)
    rw [happend, List.length_append, List.length_cons] at hlen
    omega

/-- The way down to a directory is no longer than there are numbers, because it has no number
    twice. -/
theorem IsTrail.length_le (tree : fs.IsTree) {n : Nat} {r : Trail} (ht : fs.IsTrail (n :: r))
    (hn : (fs.entries? n).isSome) : (n :: r).length ≤ fs.inodes.length := by
  have hsub : n :: r ⊆ List.range fs.inodes.length := by
    intro d hd
    refine List.mem_range.mpr (lt_length_of_entries ?_)
    rcases List.mem_cons.mp hd with rfl | hd
    · exact hn
    · exact ht.entries_of_mem hd
  simpa using (ht.nodup tree hn).length_le_of_subset hsub

/-! ### Listings

The depth bounds the recursion of a listing. That it does not cut anything off is shown by
induction on the depth, with the length of the way down so far: the two together are at least the
number of numbers.
-/

/-- What a listing shows of an entry and of all below it. -/
def listed (fs : FileSystem) (actor : Actor) (depth : Nat) (path : String) (m : Nat) :
    List Listed :=
  match fs.inode? m with
  | some ⟨_, _, .link target⟩ => [.link path target]
  | some ⟨_, _, .directory _⟩ => .directory path :: fs.listingBelow actor depth path m
  | some ⟨mode, owner, .file bytes⟩ =>
    let readable := Inode.permits ⟨mode, owner, .file bytes⟩ actor .read
    [.file path (permissionBits mode) (if readable then bytes else ByteArray.empty)]
  | none => []

/-- Below what is no directory nothing is listed. -/
theorem listingBelow_of_no_entries {n : Nat} (hn : fs.entries? n = none) (depth : Nat)
    (path : String) : fs.listingBelow actor depth path n = [] := by
  cases depth with
  | zero => rfl
  | succ depth =>
    rw [listingBelow]
    rcases hi : fs.inode? n with _ | ⟨mode, owner, file | entries | target⟩
    case some.directory =>
      rw [entries?, hi] at hn
      cases hn
    all_goals rfl

/-- A listing of a directory shows its entries in the order of their names, each with what is
    below it, provided that the actor may read and search it. -/
theorem listingBelow_succ {n : Nat} {i : Inode} {entries : List (String × Nat)}
    (hi : fs.inode? n = some i) (hentries : i.content = .directory entries) (depth : Nat)
    (path : String) :
    fs.listingBelow actor (depth + 1) path n
      = if i.permits actor .read && i.permits actor .search then
          (sortEntries entries).flatMap fun e => fs.listed actor depth (joinPath path e.1) e.2
        else [] := by
  obtain ⟨mode, owner, content⟩ := i
  obtain rfl : content = .directory entries := hentries
  rw [listingBelow, hi]
  simp only
  cases Inode.permits ⟨mode, owner, .directory entries⟩ actor .read
    && Inode.permits ⟨mode, owner, .directory entries⟩ actor .search
  · rfl
  · rfl

/-- What is listed below a place shows no more when one looks deeper than there are numbers
    that are not yet on the way to it. -/
theorem listingBelow_add (h : fs.Sound) (depth more : Nat) {n : Nat} {r : Trail}
    (ht : fs.IsTrail (n :: r)) (hdepth : fs.inodes.length ≤ depth + r.length) (path : String) :
    fs.listingBelow actor (depth + more) path n = fs.listingBelow actor depth path n := by
  induction depth generalizing n r path with
  | zero =>
    -- the way to a directory would be too long
    cases hn : fs.entries? n with
    | none => rw [listingBelow_of_no_entries hn, listingBelow_of_no_entries hn]
    | some entries =>
      have hlen := ht.length_le h.toIsTree (by rw [hn]; rfl)
      rw [List.length_cons] at hlen
      omega
  | succ depth ih =>
    cases hn : fs.entries? n with
    | none => rw [listingBelow_of_no_entries hn, listingBelow_of_no_entries hn]
    | some entries =>
      obtain ⟨mode, owner, hi⟩ := entries_eq_some_iff.mp hn
      rw [Nat.succ_add, listingBelow_succ hi rfl, listingBelow_succ hi rfl]
      congr 1
      rw [List.flatMap_def, List.flatMap_def]
      refine congrArg List.flatten (List.map_congr_left fun (s, m) he => ?_)
      have hentry : fs.entryIn? n s = some m :=
        h.entry_of_mem hn (List.mem_mergeSort.mp he)
      have hbelow := ih (ht.cons hentry) (by rw [List.length_cons]; omega) (joinPath path s)
      simp only [listed, hbelow]

/-- **A listing shows all that is reached**: to look deeper shows no more, and any depth from the
    number of numbers on will do. -/
theorem listing_eq_below (h : fs.Sound) {depth : Nat} (hdepth : fs.inodes.length ≤ depth) :
    fs.listing actor = fs.listingBelow actor depth "" 0 := by
  obtain ⟨more, rfl⟩ := Nat.exists_eq_add_of_le hdepth
  exact (listingBelow_add h _ more (show fs.IsTrail [0] from rfl) (by simp) "").symm

end SchemaEmbed.FileSystem
