import SchemaEmbed.Proofs.FileSystem.Walk
import SchemaEmbed.Proofs.Outcome

namespace SchemaEmbed.FileSystem

/-!
# Trees and trails

Directories have one place each: nobody can give a directory a second name. So the directories
around a directory are the same on whatever way a path gets there, and with them what a relative
symbolic link in it leads to:

* `IsTree` — the entries of directories make a tree of them;
* `IsTrail` — a place is the way down from the top of the tree;
* `IsTrail.unique` — there is one way down to a directory;
* `walk_isTrail` — walks go from trail to trail, and so `IsTrail.lt_length`: they arrive at what is
  there.

This is what allows to speak of what happens to a file when a path is walked that has nothing to do
with it. Two walks that come to the same directory are at the same place, so what follows is the
same, although a place is a list of numbers and not just the last one.

Files may have several names, in one directory or in several, and nothing here excludes that.
-/

variable {fs : FileSystem} {actor : Actor}

/-- The entries of directories make a tree: there is a directory at the top, and entries
    lead to what is there, but not back to the top, and to one directory from one other
    only. -/
structure IsTree (fs : FileSystem) : Prop where
  root : (fs.entries? 0).isSome
  closed : ∀ {d s n}, fs.entryIn? d s = some n → n < fs.inodes.length
  rootless : ∀ {d s}, fs.entryIn? d s ≠ some 0
  parent : ∀ {d e s r n}, fs.entryIn? d s = some n → fs.entryIn? e r = some n →
    (fs.entries? n).isSome → d = e

/-- Whether a place is a way down from the top of the tree, or outside of it. -/
def IsTrail (fs : FileSystem) : Trail → Prop
  | [] => True
  | [n] => n = 0
  | n :: d :: rest => (∃ s, fs.entryIn? d s = some n) ∧ IsTrail fs (d :: rest)

/-! ### Numbers

Numbers are given in order, so what is new has a number that no entry can have.
-/

/-- What is there has a number below the first one that is new. -/
theorem lt_length_of_inode {m : Nat} {i : Inode} (h : fs.inode? m = some i) :
    m < fs.inodes.length :=
  (List.getElem?_eq_some_iff.mp h).1

/-- A directory has a number below the first one that is new. -/
theorem lt_length_of_entries {n : Nat} (h : (fs.entries? n).isSome) : n < fs.inodes.length := by
  obtain ⟨mode, owner, entries, hinode⟩ := entries_isSome_iff.mp h
  exact lt_length_of_inode hinode

/-! ### Trails

A place is the list of numbers from itself up to the top. It is a trail if each of them is an entry
of the next.
-/

/-- Only directories have entries. -/
theorem entries_of_entry {d n : Nat} {s : String} (h : fs.entryIn? d s = some n) :
    (fs.entries? d).isSome := by
  unfold entryIn? at h
  cases he : fs.entries? d with
  | none => rw [he] at h; cases h
  | some entries => rfl

/-- The directory around a place is a place, on the same way down. -/
theorem IsTrail.tail {t : Trail} (h : fs.IsTrail t) : fs.IsTrail t.tail := by
  rcases t with _ | ⟨n, _ | ⟨d, r⟩⟩
  · trivial
  · trivial
  · exact h.2

/-- An entry of a directory is one step further down. -/
theorem IsTrail.cons {d n : Nat} {r : Trail} {s : String} (h : fs.IsTrail (d :: r))
    (he : fs.entryIn? d s = some n) : fs.IsTrail (n :: d :: r) :=
  ⟨⟨s, he⟩, h⟩

/-- A name that is found is one step further down as well. -/
theorem IsTrail.lookUp {t : Trail} {s : String} {m : Nat} (h : fs.IsTrail t)
    (hs : fs.lookUp actor t s = .ok m) : fs.IsTrail (m :: t) := by
  obtain ⟨d, r, i, rfl, -, -, -, he⟩ := lookUp_eq_ok_iff.mp hs
  exact h.cons he

/-- Paths begin at the top or outside of the tree, which are ways down that have not begun. -/
theorem isTrail_base (path : String) : fs.IsTrail (base path) := by
  unfold base
  split
  · trivial
  · rfl

/-- Targets of symbolic links begin in the directory of the link or outside of the tree. -/
theorem IsTrail.linkBase {t : Trail} (h : fs.IsTrail t) (target : String) :
    fs.IsTrail (linkBase target t) := by
  unfold FileSystem.linkBase
  split
  · trivial
  · exact h

/-- **One way down.**  Two trails to a directory are the same. -/
theorem IsTrail.unique (tree : fs.IsTree) {n : Nat} {a b : Trail}
    (hdir : (fs.entries? n).isSome) (ha : fs.IsTrail (n :: a)) (hb : fs.IsTrail (n :: b)) :
    a = b := by
  -- upwards from the directory: nothing leads back to the top, and what is not the top
  -- has one directory around it
  induction a generalizing n b with
  | nil =>
    cases b with
    | nil => rfl
    | cons e b =>
      obtain ⟨s, he⟩ := hb.1
      rw [show n = 0 from ha] at he
      exact absurd he tree.rootless
  | cons d a ih =>
    obtain ⟨s, hd⟩ := ha.1
    cases b with
    | nil =>
      rw [show n = 0 from hb] at hd
      exact absurd hd tree.rootless
    | cons e b =>
      obtain ⟨r, he⟩ := hb.1
      obtain rfl := tree.parent hd he hdir
      rw [ih (entries_of_entry hd) ha.2 hb.2]

/-- The place where a walk stops, which for a link is the directory that it is in. -/
def Stop.trail : Stop → Trail
  | .arrived t => t
  | .link t _ _ => t

/-- Up to the link where it stops, a walk goes from trail to trail. -/
theorem advance_isTrail {last : Bool} {t : Trail} {parts : List Part} {stop : Stop}
    (ht : fs.IsTrail t) (h : fs.advance actor last t parts = .ok stop) : fs.IsTrail stop.trail := by
  induction parts generalizing t with
  | nil => rw [advance] at h; cases h; exact ht
  | cons p rest ih =>
    cases p with
    | here =>
      rw [advance] at h
      obtain ⟨-, -, h⟩ := bind_eq_ok_iff.mp h
      exact ih ht h
    | up =>
      rw [advance] at h
      obtain ⟨-, -, h⟩ := bind_eq_ok_iff.mp h
      exact ih ht.tail h
    | name s =>
      rw [advance] at h
      obtain ⟨m, hs, h⟩ := bind_eq_ok_iff.mp h
      -- a link that is followed leaves the walk in its directory, all else is entered
      split at h
      · split at h
        · cases h; exact ht
        · exact ih (ht.lookUp hs) h
      · exact ih (ht.lookUp hs) h

/-- A walk that begins on a trail and arrives does so on a trail, however many links it followed. -/
theorem walk_isTrail {last : Bool} {k : Nat} {t u : Trail} {parts : List Part}
    (ht : fs.IsTrail t) (h : fs.walk actor last k t parts = .ok u) : fs.IsTrail u := by
  induction k generalizing t parts with
  | zero =>
    rw [walk] at h
    obtain ⟨stop, hs, h⟩ := bind_eq_ok_iff.mp h
    have hstop := advance_isTrail ht hs
    cases stop with
    | arrived u => cases h; exact hstop
    | link u target rest => cases h
  | succ k ih =>
    rw [walk] at h
    obtain ⟨stop, hs, h⟩ := bind_eq_ok_iff.mp h
    have hstop := advance_isTrail ht hs
    cases stop with
    | arrived u => cases h; exact hstop
    | link u target rest => exact ih (hstop.linkBase target) h

/-- A trail ends at something that is there, since entries lead nowhere else. -/
theorem IsTrail.lt_length (tree : fs.IsTree) {n : Nat} {r : Trail} (h : fs.IsTrail (n :: r)) :
    n < fs.inodes.length := by
  cases r with
  | nil => rw [show n = 0 from h]; exact lt_length_of_entries tree.root
  | cons d r =>
    obtain ⟨s, he⟩ := h.1
    exact tree.closed he

end SchemaEmbed.FileSystem
