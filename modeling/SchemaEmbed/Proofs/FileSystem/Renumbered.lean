import Mathlib.Logic.Function.Basic
import SchemaEmbed.Proofs.FileSystem.Listing

namespace SchemaEmbed.FileSystem

/-!
# Trees that differ in numbers only

A file that is replaced stands under a new number, and may have a new owner. Nobody who uses paths
can see the number. So a tree in which files are replaced is to one in which they are written in
place as a tree is to itself with other numbers:

* `Renumbered` — what is reached in one tree is reached in the other under another number, with the
  same mode and the same in it;
* `Renumbered.walk` — walks go the same way, and so paths lead to the same (`Renumbered.resolve`,
  `Renumbered.entryOf`);
* `Renumbered.readText_superuser` / `Renumbered.listing_superuser` — every path reads the same, and
  the trees are listed the same;
* `Renumbered.write` — **one write**: a file that has one entry is written in place in one tree and
  replaced in the other.

Only what is reached from the top is compared. The old file stays in the list of the other tree
after it was replaced, without an entry, and nothing is asked of it. Where a file has two entries
the statement about one write fails: written in place it changes under both, replaced under one.
-/

variable {fs fs' : FileSystem} {actor : Actor} {ρ : Nat → Nat} {path : String}

/-- Entries with other numbers: the names stay, and so does their order. -/
def renumber (ρ : Nat → Nat) (entries : List (String × Nat)) : List (String × Nat) :=
  entries.map fun e => (e.1, ρ e.2)

/-- Whether something is the same but for the numbers of entries and the owner of a file. -/
inductive SameNode (ρ : Nat → Nat) : Inode → Inode → Prop
  | file {mode owner owner' bytes} :
    SameNode ρ ⟨mode, owner, .file bytes⟩ ⟨mode, owner', .file bytes⟩
  | directory {mode owner entries} :
    SameNode ρ ⟨mode, owner, .directory entries⟩ ⟨mode, owner, .directory (renumber ρ entries)⟩
  | link {mode owner target} : SameNode ρ ⟨mode, owner, .link target⟩ ⟨mode, owner, .link target⟩

/-- Whether a tree is another with other numbers, as far as it is reached from the top. -/
structure Renumbered (ρ : Nat → Nat) (fs fs' : FileSystem) : Prop where
  root : ρ 0 = 0
  injective : ∀ {m n}, fs.Reached m → fs.Reached n → ρ m = ρ n → m = n
  node : ∀ {n}, fs.Reached n → Option.Rel (SameNode ρ) (fs.inode? n) (fs'.inode? (ρ n))

/-- Every tree is itself with its own numbers. -/
theorem Renumbered.refl (fs : FileSystem) : Renumbered id fs fs := by
  refine ⟨rfl, fun _ _ h => h, fun {n} _ => ?_⟩
  show Option.Rel (SameNode id) (fs.inode? n) (fs.inode? n)
  rcases fs.inode? n with _ | ⟨mode, owner, file | entries | target⟩
  · exact .none
  · exact .some .file
  · have hself : renumber id entries = entries := List.map_id entries
    have hsame : SameNode id ⟨mode, owner, .directory entries⟩
        ⟨mode, owner, .directory (renumber id entries)⟩ := .directory
    rw [hself] at hsame
    exact .some hsame
  · exact .some .link

/-! ### What stands under a number

One fact for each thing that can stand somewhere, and from them that looking up goes the same way.
-/

namespace Renumbered

/-- A directory has the same entries in both trees, with their numbers changed. -/
theorem entries (h : Renumbered ρ fs fs') {d : Nat} (hd : fs.Reached d) :
    fs'.entries? (ρ d) = (fs.entries? d).map (renumber ρ) := by
  have hnode := h.node hd
  unfold entries?
  revert hnode
  generalize fs.inode? d = i, fs'.inode? (ρ d) = i'
  rintro (⟨⟨⟩⟩ | _) <;> rfl

/-- A file holds the same octets in both trees. -/
theorem file (h : Renumbered ρ fs fs') {n : Nat} (hn : fs.Reached n) :
    fs'.file? (ρ n) = fs.file? n := by
  have hnode := h.node hn
  unfold file?
  revert hnode
  generalize fs.inode? n = i, fs'.inode? (ρ n) = i'
  rintro (⟨⟨⟩⟩ | _) <;> rfl

/-- A symbolic link has the same target in both trees. -/
theorem link (h : Renumbered ρ fs fs') {n : Nat} (hn : fs.Reached n) :
    fs'.link? (ρ n) = fs.link? n := by
  have hnode := h.node hn
  unfold link?
  revert hnode
  generalize fs.inode? n = i, fs'.inode? (ρ n) = i'
  rintro (⟨⟨⟩⟩ | _) <;> rfl

/-- What must be a directory is one in both trees or in none. -/
theorem requireDirectory (h : Renumbered ρ fs fs') {t : Trail} (ht : fs.IsTrail t) :
    fs'.requireDirectory (t.map ρ) = fs.requireDirectory t := by
  cases t with
  | nil => rfl
  | cons n r =>
    have hnode := h.node ⟨r, ht⟩
    simp only [List.map_cons, FileSystem.requireDirectory]
    revert hnode
    generalize fs.inode? n = i, fs'.inode? (ρ n) = i'
    rintro (⟨⟨⟩⟩ | _) <;> rfl

/-- A name is found in both trees or in none, and for the same reason if in none. -/
theorem lookUp (h : Renumbered ρ fs fs') {t : Trail} (ht : fs.IsTrail t) (s : String) :
    fs'.lookUp actor (t.map ρ) s = (fs.lookUp actor t s).map ρ := by
  cases t with
  | nil => rfl
  | cons d r =>
    have hnode := h.node ⟨r, ht⟩
    rw [List.map_cons]
    generalize hi : fs.inode? d = i, hi' : fs'.inode? (ρ d) = i' at hnode
    rcases hnode with ⟨⟨⟩⟩ | _
    case some.directory mode owner entries =>
      rw [lookUp_of_inode hi rfl, lookUp_of_inode hi' rfl]
      have hperm : Inode.permits ⟨mode, owner, .directory (renumber ρ entries)⟩ actor .search
          = Inode.permits ⟨mode, owner, .directory entries⟩ actor .search := rfl
      rw [hperm, renumber, Entries.find_map]
      split
      · rfl
      · split
        · rfl
        · cases Entries.find? s entries <;> rfl
    all_goals
      rw [lookUp_of_no_entries (by simp only [entries?, hi']),
        lookUp_of_no_entries (by simp only [entries?, hi])]
      rfl

/-- A part that cannot be taken from a place fails for the same reason in both trees. -/
theorem partFault (h : Renumbered ρ fs fs') {t : Trail} (ht : fs.IsTrail t) (p : Part) :
    fs'.partFault? actor (t.map ρ) p = fs.partFault? actor t p := by
  cases p with
  | here => simp only [partFault?, h.requireDirectory ht]
  | up => simp only [partFault?, h.requireDirectory ht]
  | name s =>
    simp only [partFault?, h.lookUp ht]
    cases fs.lookUp actor t s <;> rfl

/-! ### Walks and paths -/

/-- **Walks go the same way.** -/
theorem walk (h : Renumbered ρ fs fs') (k : Nat) (t : Trail) (parts : List Part)
    (ht : fs.IsTrail t) :
    fs'.walk actor true k (t.map ρ) parts = (fs.walk actor true k t parts).map (List.map ρ) := by
  -- what is found is under the other number, and is a symbolic link only if it is one here
  have hlook {t : Trail} {s : String} {m : Nat} (ht : fs.IsTrail t)
      (hs : fs.lookUp actor t s = .ok m) :
      fs'.lookUp actor (t.map ρ) s = .ok (ρ m) ∧ fs'.link? (ρ m) = fs.link? m :=
    ⟨by rw [h.lookUp ht, hs]; rfl, h.link ⟨t, ht.lookUp hs⟩⟩
  induction k, t, parts using fs.walk_induction actor with
  | nil k t => rw [walk_nil, walk_nil]; rfl
  | stuck k t p rest e hp => rw [walk_stuck hp, walk_stuck ((h.partFault ht p).trans hp)]; rfl
  | here k t rest hd ih =>
    rw [walk_here hd, walk_here ((h.requireDirectory ht).trans hd), ih ht]
  | up k t rest hd ih =>
    rw [walk_up hd, walk_up ((h.requireDirectory ht).trans hd), ← ih ht.tail, List.map_tail]
  | plain k t s rest m hs hm ih =>
    obtain ⟨hs', hm'⟩ := hlook ht hs
    rw [walk_plain hs hm, walk_plain hs' (hm'.trans hm), ← ih (ht.lookUp hs), List.map_cons]
  | limit t s rest m target hs hm =>
    obtain ⟨hs', hm'⟩ := hlook ht hs
    rw [walk_limit hs hm, walk_limit hs' (hm'.trans hm)]
    rfl
  | link k t s rest m target hs hm ih =>
    obtain ⟨hs', hm'⟩ := hlook ht hs
    rw [walk_link hs hm, walk_link hs' (hm'.trans hm), ← ih (ht.linkBase target)]
    unfold linkBase
    split <;> rfl

/-- Paths begin at the same place, since the first directory is the top of both trees. -/
theorem map_base (h : Renumbered ρ fs fs') (path : String) : (base path).map ρ = base path := by
  unfold base
  split
  · rfl
  · rw [start, List.map_singleton, h.root]

/-- A path is walked along the same way, whichever place it begins at. -/
theorem walk_base (h : Renumbered ρ fs fs') (path : String) (parts : List Part) :
    fs'.walk actor true maxLinks (base path) parts
      = (fs.walk actor true maxLinks (base path) parts).map (List.map ρ) := by
  rw [← h.walk maxLinks (base path) parts (isTrail_base path), h.map_base]

/-- **Paths lead to the same** place, with its numbers changed. -/
theorem resolve (h : Renumbered ρ fs fs') (actor : Actor) (path : String) :
    fs'.resolve actor true path = (fs.resolve actor true path).map (List.map ρ) := by
  unfold FileSystem.resolve
  split
  · rfl
  · split
    · rfl
    · exact h.walk_base path (partsOf path)

/-- A path ends in the same entry of the same directory. -/
theorem entryOf (h : Renumbered ρ fs fs') {d : Nat} {name : String}
    (he : fs.entryOf actor path = .ok (d, name)) : fs'.entryOf actor path = .ok (ρ d, name) := by
  obtain ⟨parts, around, hparts, hw, hd⟩ := entryOf_eq_ok_iff.mp he
  refine entryOf_eq_ok_iff.mpr ⟨parts, around.map ρ, hparts, by rw [h.walk_base, hw]; rfl, ?_⟩
  rw [h.entries ⟨around, walk_isTrail (isTrail_base path) hw⟩, Option.isSome_map, hd]

/-! ### Reading and listing

To the superuser permissions are no matter, so what is the same in both trees is read and listed
the same.
-/

/-- **Every path reads the same** to the superuser. For a user the owner would matter, which may
    differ. -/
theorem readText_superuser (h : Renumbered ρ fs fs') (path : String) :
    fs'.readText .superuser path = fs.readText .superuser path := by
  unfold readText
  rw [readBytes_eq, readBytes_eq, h.resolve]
  cases hr : fs.resolve .superuser true path with
  | error e => rfl
  | ok t =>
    have hbytes : fs'.bytesAt .superuser (t.map ρ) = fs.bytesAt .superuser t := by
      cases t with
      | nil => rfl
      | cons n u =>
        obtain ⟨-, -, hw⟩ := resolve_eq_ok_iff.mp hr
        have hnode := h.node ⟨u, walk_isTrail (isTrail_base path) hw⟩
        simp only [List.map_cons, bytesAt]
        revert hnode
        generalize fs.inode? n = i, fs'.inode? (ρ n) = i'
        rintro (⟨⟨⟩⟩ | _) <;> rfl
    simp only [Except.map, ok_bind, hbytes]

/-- The order of names in a listing does not depend on numbers. -/
theorem sortEntries_renumber (ρ : Nat → Nat) (entries : List (String × Nat)) :
    sortEntries (renumber ρ entries) = renumber ρ (sortEntries entries) := by
  symm
  refine List.map_mergeSort fun a _ b _ => ?_
  rfl

/-- What is below a directory is listed the same, as deep as one looks. -/
theorem listingBelow (h : Renumbered ρ fs fs') (sound : fs.Sound) (depth : Nat) {n : Nat}
    (hn : fs.Reached n) (path : String) :
    fs'.listingBelow .superuser depth path (ρ n) = fs.listingBelow .superuser depth path n := by
  induction depth generalizing n path with
  | zero => rfl
  | succ depth ih =>
    have hnode := h.node hn
    generalize hi : fs.inode? n = i, hi' : fs'.inode? (ρ n) = i' at hnode
    rcases hnode with ⟨⟨⟩⟩ | _
    case some.directory mode owner entries =>
      rw [listingBelow_succ hi rfl, listingBelow_succ hi' rfl, sortEntries_renumber]
      show (List.map _ _).flatMap _ = _
      rw [List.flatMap_map, List.flatMap_def, List.flatMap_def]
      refine congrArg List.flatten (List.map_congr_left fun (s, m) he => ?_)
      have hm : fs.Reached m := hn.entry (sound.entry_of_mem
        (show fs.entries? n = some entries by simp only [entries?, hi]) (List.mem_mergeSort.mp he))
      -- an entry is shown the same, and by induction so is what is below it
      have hnode := h.node hm
      have hbelow := ih hm (joinPath path s)
      simp only [listed]
      revert hnode
      generalize fs.inode? m = j, fs'.inode? (ρ m) = j'
      rintro (⟨⟨⟩⟩ | _)
      case some.directory => exact congrArg _ hbelow
      all_goals rfl
    all_goals
      rw [listingBelow_of_no_entries (by simp only [entries?, hi']),
        listingBelow_of_no_entries (by simp only [entries?, hi])]

/-- **The trees are listed the same** to the superuser. Each listing looks as deep as its own
    tree has numbers, and both look deep enough. -/
theorem listing_superuser (h : Renumbered ρ fs fs') (sound : fs.Sound) (sound' : fs'.Sound) :
    fs'.listing .superuser = fs.listing .superuser := by
  rw [listing_eq_below sound' (Nat.le_max_left _ fs.inodes.length),
    listing_eq_below sound (Nat.le_max_right fs'.inodes.length _)]
  have hbelow := h.listingBelow sound (max fs'.inodes.length fs.inodes.length)
    (reached_root fs) ""
  rwa [h.root] at hbelow

end Renumbered

/-! ### One write

The new file gets the first number that is new, which no other file has in the other tree. So the
map of numbers is changed in one place and stays injective, and the one directory with an entry for
the file is changed along with it.
-/

/-- Ways down are a matter of entries, so trees with the same entries have the same ones. -/
theorem isTrail_congr (hentries : ∀ d, fs'.entries? d = fs.entries? d) (t : Trail) :
    fs'.IsTrail t ↔ fs.IsTrail t := by
  induction t with
  | nil => rfl
  | cons n r ih =>
    cases r with
    | nil => rfl
    | cons d r => simp only [IsTrail, entryIn?, hentries, ih]

/-- If one number is changed that only one entry has, then this is the same as setting that
    entry. -/
theorem renumber_update {entries : Entries Nat} {name : String} {n : Nat} (k : Nat)
    (hkeys : (Entries.keys entries).Nodup) (hfind : Entries.find? name entries = some n)
    (halone : ∀ s, (s, n) ∈ entries → s = name) :
    renumber (Function.update ρ n k) entries = Entries.put name k (renumber ρ entries) := by
  have hother {es : Entries Nat} (hes : ∀ s, (s, n) ∉ es) :
      renumber (Function.update ρ n k) es = renumber ρ es :=
    List.map_congr_left fun (s, m) he => by
      rw [Function.update_of_ne]
      rintro rfl
      exact hes s he
  induction entries with
  | nil => cases hfind
  | cons e rest ih =>
    obtain ⟨s, m⟩ := e
    obtain ⟨hs, hrest⟩ := List.nodup_cons.mp hkeys
    by_cases hname : s = name
    · subst hname
      obtain rfl : m = n := by simpa [Entries.find?] using hfind
      -- the rest has no entry of the name, and so none of the number
      have hnone : ∀ r, (r, m) ∉ rest := fun r hr =>
        hs (List.mem_map.mpr ⟨(r, m), hr, halone r (List.mem_cons_of_mem _ hr)⟩)
      have htail := hother hnone
      simp only [renumber, List.map_cons, Entries.put, ↓reduceIte, Function.update_self] at htail ⊢
      rw [htail]
    · have hne : m ≠ n := by
        rintro rfl
        exact hname (halone s List.mem_cons_self)
      have htail := ih hrest (by simpa [Entries.find?, hname] using hfind)
        fun r hr => halone r (List.mem_cons_of_mem _ hr)
      simp only [renumber, List.map_cons, Entries.put, hname, ↓reduceIte,
        Function.update_of_ne hne] at htail ⊢
      rw [htail]

/-- Whether an entry of a directory leads to a file, and it is the only entry that does. -/
structure HoldsAlone (fs : FileSystem) (d : Nat) (name : String) (n : Nat) : Prop where
  reached : fs.Reached d
  entry : fs.entryIn? d name = some n
  file : (fs.file? n).isSome
  alone : ∀ {e s}, fs.Reached e → fs.entryIn? e s = some n → e = d ∧ s = name

namespace Renumbered

/-- What is reached stands under a number of the other tree, below the first one that is new
    there. -/
theorem lt_length (h : Renumbered ρ fs fs') (sound : fs.Sound) {m : Nat} (hm : fs.Reached m) :
    ρ m < fs'.inodes.length := by
  obtain ⟨r, hr⟩ := hm
  obtain ⟨i, hi⟩ : ∃ i, fs.inode? m = some i :=
    ⟨_, List.getElem?_eq_getElem (hr.lt_length sound.toIsTree)⟩
  have hnode := h.node ⟨r, hr⟩
  rw [hi] at hnode
  generalize hi' : fs'.inode? (ρ m) = i' at hnode
  cases hnode with
  | some _ => exact lt_length_of_inode hi'

/-- Numbers stay different when one of them becomes the first one that is new. -/
theorem injective_update (h : Renumbered ρ fs fs') (sound : fs.Sound) {a b n : Nat}
    (ha : fs.Reached a) (hb : fs.Reached b)
    (hab : Function.update ρ n fs'.inodes.length a = Function.update ρ n fs'.inodes.length b) :
    a = b := by
  by_cases han : a = n
  · by_cases hbn : b = n
    · rw [han, hbn]
    · rw [han, Function.update_self, Function.update_of_ne hbn] at hab
      exact absurd hab (Nat.ne_of_gt (h.lt_length sound hb))
  · by_cases hbn : b = n
    · rw [hbn, Function.update_self, Function.update_of_ne han] at hab
      exact absurd hab (Nat.ne_of_lt (h.lt_length sound ha))
    · rw [Function.update_of_ne han, Function.update_of_ne hbn] at hab
      exact h.injective ha hb hab

section

variable {d n mode : Nat} {name : String} {owner : Actor} {bytes : ByteArray}
  (h : Renumbered ρ fs fs') (sound : fs.Sound) (hold : fs.HoldsAlone d name n)

include h sound hold

/-- The directory of the entry has the entry under its new number, and all others as before. -/
theorem node_directory :
    Option.Rel (SameNode (Function.update ρ n fs'.inodes.length)) (fs.inode? d)
      ((fs'.replaceEntry (ρ d) name mode owner bytes).inode? (ρ d)) := by
  obtain ⟨hd, hentry, -, halone⟩ := hold
  obtain ⟨mode', owner', entries, hdi⟩ := entries_isSome_iff.mp (entries_of_entry hentry)
  have hentries : fs.entries? d = some entries := by simp only [entries?, hdi]
  have hnode := h.node hd
  rw [hdi] at hnode ⊢
  generalize hdi' : fs'.inode? (ρ d) = i' at hnode
  rcases hnode with ⟨⟨⟩⟩
  have hput : renumber (Function.update ρ n fs'.inodes.length) entries
      = Entries.put name fs'.inodes.length (renumber ρ entries) :=
    renumber_update _ (sound.distinct hentries) (by rwa [entryIn?, hentries] at hentry)
      fun s hs => (halone hd (sound.entry_of_mem hentries hs)).2
  rw [inode_replaceEntry_directory hdi' rfl, if_pos rfl, ← hput]
  exact .some .directory

/-- Whatever else is reached stays as it is: no other directory has an entry for the file. -/
theorem node_other {m : Nat} (hm : fs.Reached m) (hmd : m ≠ d) :
    Option.Rel (SameNode (Function.update ρ n fs'.inodes.length)) (fs.inode? m)
      ((fs'.replaceEntry (ρ d) name mode owner bytes).inode? (ρ m)) := by
  obtain ⟨hd, -, -, halone⟩ := hold
  have hne : ρ d ≠ ρ m := fun heq => hmd (h.injective hm hd heq.symm)
  have hnode := h.node hm
  rw [inode_replaceEntry_of_lt (h.lt_length sound hm), modifyEntries, inode_modify, if_neg hne]
  generalize hmi : fs.inode? m = i, fs'.inode? (ρ m) = i' at hnode
  rcases hnode with ⟨⟨⟩⟩ | _
  case some.directory mode' owner' entries =>
    have hentries : fs.entries? m = some entries := by simp only [entries?, hmi]
    have hsame : renumber (Function.update ρ n fs'.inodes.length) entries = renumber ρ entries :=
      List.map_congr_left fun e he => by
        have hen : e.2 ≠ n := fun heq =>
          hmd (halone hm (heq ▸ sound.entry_of_mem hentries he)).1
        rw [Function.update_of_ne hen]
    rw [← hsame]
    exact .some .directory
  case some.file => exact .some .file
  case some.link => exact .some .link
  case none => exact .none

end

/-- **One write.** A file that has one entry is written in place in one tree and replaced in
    the other, and then the trees differ in numbers only: the file has the new one. -/
theorem write (h : Renumbered ρ fs fs') (sound : fs.Sound) {d n mode : Nat}
    {name : String} {owner : Actor} {old bytes : ByteArray} (hold : fs.HoldsAlone d name n)
    (hi : fs.inode? n = some ⟨mode, owner, .file old⟩) (owner' : Actor) :
    Renumbered (Function.update ρ n fs'.inodes.length) (fs.setBytes n bytes)
      (fs'.replaceEntry (ρ d) name mode owner' bytes) := by
  have hfile := hold.file
  have hreached (m : Nat) : (fs.setBytes n bytes).Reached m ↔ fs.Reached m :=
    exists_congr fun r => isTrail_congr (entries_setBytes hi) (m :: r)
  refine ⟨?_, fun {a b} ha hb hab => ?_, fun {m} hm => ?_⟩
  · -- the top is no file
    rw [Function.update_of_ne, h.root]
    rintro rfl
    have hroot := sound.root
    rw [entries_of_file hfile] at hroot
    cases hroot
  · rw [hreached] at ha hb
    exact h.injective_update sound ha hb hab
  · rw [hreached] at hm
    rw [inode_setBytes hi]
    by_cases hmn : m = n
    · rw [if_pos hmn.symm, hmn, Function.update_self,
        inode_replaceEntry_length (h.lt_length sound hold.reached)]
      exact .some .file
    rw [if_neg (Ne.symm hmn), Function.update_of_ne hmn]
    by_cases hmd : m = d
    · rw [hmd]
      exact h.node_directory sound hold
    · exact h.node_other sound hold hm hmd

end Renumbered

end SchemaEmbed.FileSystem
