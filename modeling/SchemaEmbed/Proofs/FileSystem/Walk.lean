import SchemaEmbed.FileSystem.Shape

namespace SchemaEmbed.FileSystem

/-!
# Walks along paths

A walk follows symbolic links, of which it may follow only so many. Its definition is a recursion
on the links that are left, with a recursion on the parts of the path inside of it that stops at
the next link; that is how it terminates, but no proof wants to think of it in that way. What it
does is brought into the form that proofs use:

* `file_isSome_iff` / `entries_isSome_iff` — what stands under a number;
* `walk_nil` / `walk_here` / `walk_up` / `walk_plain` / `walk_link` — a walk part by part, and
  `walk_induction`, the induction that goes with them;
* `walk_add` — a walk that has not met its limit is the same with a higher one;
* `walk_append` — a walk along two paths in a row uses up the links of the first;
* `Leads` / `Names` / `SameFile` — where a path leads when links are followed without limit, and
  when two paths name the same file;
* `walk_beyond_file` — nothing is found beyond a file, whatever the limit is.

`Names` is about files and not about actors: it asks what a path would lead to if nothing were
forbidden and no limit were met. So it can be compared before and after a change, while success
depends on permissions and on the number of links.
-/

variable {fs : FileSystem} {actor : Actor}

/-! ### What stands under a number

Three partial functions, of which at most one is defined under a number. Most statements about a
tree of files say what becomes of them.
-/

/-- The target of the symbolic link under a number, if one stands there. -/
def link? (fs : FileSystem) (n : Nat) : Option String :=
  match fs.inode? n with
  | some ⟨_, _, .link target⟩ => some target
  | _ => none

/-- The octets of the file under a number, if one stands there. -/
def file? (fs : FileSystem) (n : Nat) : Option ByteArray :=
  match fs.inode? n with
  | some ⟨_, _, .file bytes⟩ => some bytes
  | _ => none

/-- The number of an entry of the directory under a number. -/
def entryIn? (fs : FileSystem) (d : Nat) (name : String) : Option Nat :=
  (fs.entries? d).bind (Entries.find? name)

/-- A file stands under a number exactly if there is something whose content is a file. -/
theorem file_isSome_iff {n : Nat} :
    (fs.file? n).isSome ↔ ∃ mode owner bytes, fs.inode? n = some ⟨mode, owner, .file bytes⟩ := by
  unfold file?
  rcases fs.inode? n with _ | ⟨mode, owner, file | entries | target⟩ <;> simp

/-- The entries under a number are those of a directory that stands there. -/
theorem entries_eq_some_iff {n : Nat} {entries : List (String × Nat)} :
    fs.entries? n = some entries ↔
      ∃ mode owner, fs.inode? n = some ⟨mode, owner, .directory entries⟩ := by
  unfold entries?
  rcases fs.inode? n with _ | ⟨mode, owner, file | entries | target⟩ <;> simp

/-- A directory stands under a number exactly if there is something whose content is one. -/
theorem entries_isSome_iff {n : Nat} :
    (fs.entries? n).isSome ↔
      ∃ mode owner entries, fs.inode? n = some ⟨mode, owner, .directory entries⟩ := by
  unfold entries?
  rcases fs.inode? n with _ | ⟨mode, owner, file | entries | target⟩ <;> simp

/-- Where a file stands there is no symbolic link. -/
theorem link_of_file {n : Nat} (h : (fs.file? n).isSome) : fs.link? n = none := by
  obtain ⟨mode, owner, bytes, hi⟩ := file_isSome_iff.mp h
  simp [link?, hi]

/-- Where a file stands there is no directory. -/
theorem entries_of_file {n : Nat} (h : (fs.file? n).isSome) : fs.entries? n = none := by
  obtain ⟨mode, owner, bytes, hi⟩ := file_isSome_iff.mp h
  simp [entries?, hi]

/-! ### A walk part by part

Each equation has the condition under which it holds as a hypothesis on the place, so a walk is
computed by rewriting. `walk_induction` has one case for each of them, and its order is not that of
the definition: a link that is followed is a case of its own instead of the end of an inner
recursion.
-/

/-- Where the target of a symbolic link in the directory `t` begins: in that directory, or
    outside of the tree if it is absolute. -/
def linkBase (target : String) (t : Trail) : Trail := if isAbsolute target then [] else t

/-- Where a path begins: in the first directory, or outside of the tree if it is absolute. -/
def base (path : String) : Trail := if isAbsolute path then [] else start

/-- How a walk goes on where it stops: at a symbolic link it takes one of `k` more. -/
def follow (fs : FileSystem) (actor : Actor) (k : Nat) : Stop → Except OsError Trail
  | .arrived t => .ok t
  | .link t target rest =>
    match k with
    | 0 => .error .tooManyLinks
    | k + 1 => fs.walk actor true k (linkBase target t) (partsOf target ++ rest)

/-- A walk goes up to a link and on from there. -/
theorem walk_eq (k : Nat) (t : Trail) (parts : List Part) :
    fs.walk actor true k t parts = fs.advance actor true t parts >>= fs.follow actor k := by
  rw [walk]
  congr 1

/-- Without parts a walk is where it began. -/
@[simp] theorem walk_nil (k : Nat) (t : Trail) : fs.walk actor true k t [] = .ok t := by
  rw [walk_eq, advance]; rfl

/-- What is wrong with a part at a place, if it cannot be taken from there. -/
def partFault? (fs : FileSystem) (actor : Actor) (t : Trail) : Part → Option OsError
  | .here | .up =>
    match fs.requireDirectory t with
    | .error e => some e
    | .ok _ => none
  | .name s =>
    match fs.lookUp actor t s with
    | .error e => some e
    | .ok _ => none

/-- A part that cannot be taken ends a walk with what is wrong with it, whatever would come
    after. -/
theorem walk_stuck {t : Trail} {p : Part} {e : OsError} (h : fs.partFault? actor t p = some e)
    (k : Nat) (rest : List Part) : fs.walk actor true k t (p :: rest) = .error e := by
  rw [walk_eq]
  cases p with
  | here =>
    rw [advance]
    cases hd : fs.requireDirectory t with
    | error e' => simp only [partFault?, hd, Option.some.injEq] at h; rw [h]; rfl
    | ok _ => simp [partFault?, hd] at h
  | up =>
    rw [advance]
    cases hd : fs.requireDirectory t with
    | error e' => simp only [partFault?, hd, Option.some.injEq] at h; rw [h]; rfl
    | ok _ => simp [partFault?, hd] at h
  | name s =>
    rw [advance]
    cases hs : fs.lookUp actor t s with
    | error e' => simp only [partFault?, hs, Option.some.injEq] at h; rw [h]; rfl
    | ok _ => simp [partFault?, hs] at h

/-- A dot stays in a directory, and asks that it be one. -/
theorem walk_here {t : Trail} (h : fs.requireDirectory t = .ok ()) (k : Nat)
    (rest : List Part) :
    fs.walk actor true k t (.here :: rest) = fs.walk actor true k t rest := by
  rw [walk_eq, advance, h]
  exact (walk_eq ..).symm

/-- Two dots go to the directory around. At the top they lead out of the tree. -/
theorem walk_up {t : Trail} (h : fs.requireDirectory t = .ok ()) (k : Nat)
    (rest : List Part) :
    fs.walk actor true k t (.up :: rest) = fs.walk actor true k t.tail rest := by
  rw [walk_eq, advance, h]
  exact (walk_eq ..).symm

/-- A name is looked up, and what is found is entered unless it is a symbolic link, which is
    followed. -/
theorem walk_name {t : Trail} {s : String} {m : Nat} (h : fs.lookUp actor t s = .ok m)
    (k : Nat) (rest : List Part) :
    fs.walk actor true k t (.name s :: rest)
      = match fs.link? m with
        | none => fs.walk actor true k (m :: t) rest
        | some target => fs.follow actor k (.link t target rest) := by
  rw [walk_eq, advance, h]
  simp only [link?, bind, Except.bind, Bool.true_or, ↓reduceIte]
  rcases fs.inode? m with _ | ⟨mode, owner, file | directory | target⟩
  case some.link => rfl
  -- anything else is entered, and the walk goes on within `advance`
  all_goals exact (walk_eq ..).symm

/-- A name of a file or a directory is one step of a walk. -/
theorem walk_plain {t : Trail} {s : String} {m : Nat} (h : fs.lookUp actor t s = .ok m)
    (hm : fs.link? m = none) (k : Nat) (rest : List Part) :
    fs.walk actor true k t (.name s :: rest) = fs.walk actor true k (m :: t) rest := by
  rw [walk_name h, hm]

/-- At a symbolic link a walk fails if it may not follow any more of them. -/
theorem walk_limit {t : Trail} {s target : String} {m : Nat}
    (h : fs.lookUp actor t s = .ok m) (hm : fs.link? m = some target) (rest : List Part) :
    fs.walk actor true 0 t (.name s :: rest) = .error .tooManyLinks := by
  rw [walk_name h, hm]; rfl

/-- A symbolic link is replaced by the parts of its target. -/
theorem walk_link {t : Trail} {s target : String} {m : Nat} (h : fs.lookUp actor t s = .ok m)
    (hm : fs.link? m = some target) (k : Nat) (rest : List Part) :
    fs.walk actor true (k + 1) t (.name s :: rest)
      = fs.walk actor true k (linkBase target t) (partsOf target ++ rest) := by
  rw [walk_name h, hm]; rfl

/-- **Induction along a walk.**  What holds where a walk ends or gets stuck, and is handed
    back from what is left of a walk to the whole, holds of every walk. -/
theorem walk_induction (fs : FileSystem) (actor : Actor) {P : Nat → Trail → List Part → Prop}
    (nil : ∀ k t, P k t [])
    (stuck : ∀ k t p rest e, fs.partFault? actor t p = some e → P k t (p :: rest))
    (here : ∀ k t rest, fs.requireDirectory t = .ok () → P k t rest → P k t (.here :: rest))
    (up : ∀ k t rest, fs.requireDirectory t = .ok () → P k t.tail rest →
      P k t (.up :: rest))
    (plain : ∀ k t s rest m, fs.lookUp actor t s = .ok m → fs.link? m = none →
      P k (m :: t) rest → P k t (.name s :: rest))
    (limit : ∀ t s rest m target, fs.lookUp actor t s = .ok m → fs.link? m = some target →
      P 0 t (.name s :: rest))
    (link : ∀ k t s rest m target, fs.lookUp actor t s = .ok m → fs.link? m = some target →
      P k (linkBase target t) (partsOf target ++ rest) → P (k + 1) t (.name s :: rest))
    (k : Nat) (t : Trail) (parts : List Part) : P k t parts := by
  -- on the links that are left and, among walks with as many of them, on the parts: a link
  -- that is followed makes the path longer, but it takes one of the links
  induction k using Nat.strongRecOn generalizing t parts with
  | ind k ihk =>
    induction parts generalizing t with
    | nil => exact nil k t
    | cons p rest ih =>
      cases p with
      | here =>
        cases hd : fs.requireDirectory t with
        | error e => exact stuck k t .here rest e (by simp [partFault?, hd])
        | ok _ => exact here k t rest hd (ih t)
      | up =>
        cases hd : fs.requireDirectory t with
        | error e => exact stuck k t .up rest e (by simp [partFault?, hd])
        | ok _ => exact up k t rest hd (ih t.tail)
      | name s =>
        cases h : fs.lookUp actor t s with
        | error e => exact stuck k t (.name s) rest e (by simp [partFault?, h])
        | ok m =>
          cases hm : fs.link? m with
          | none => exact plain k t s rest m h hm (ih (m :: t))
          | some target =>
            cases k with
            | zero => exact limit t s rest m target h hm
            | succ k =>
              exact link k t s rest m target h hm (ihk k (Nat.lt_succ_self k) _ _)

/-! ### The number of links

What a walk does depends on the limit only where it meets the limit. So walks with different limits
can be compared, and the links that one part of a path needs can be put aside for it.
-/

/-- A walk that does not fail at the limit of links is the same with any higher limit. -/
theorem walk_add (fs : FileSystem) (actor : Actor) (k : Nat) (t : Trail) (parts : List Part) :
    fs.walk actor true k t parts = .error .tooManyLinks
      ∨ ∀ i, fs.walk actor true (k + i) t parts = fs.walk actor true k t parts := by
  induction k, t, parts using fs.walk_induction actor with
  | nil k t => exact .inr fun i => by rw [walk_nil, walk_nil]
  | stuck k t p rest e h => exact .inr fun i => by rw [walk_stuck h, walk_stuck h]
  | here k t rest h ih => simpa only [walk_here h] using ih
  | up k t rest h ih => simpa only [walk_up h] using ih
  | plain k t s rest m h hm ih => simpa only [walk_plain h hm] using ih
  | limit t s rest m target h hm => exact .inl (walk_limit h hm rest)
  | link k t s rest m target h hm ih =>
    simpa only [Nat.succ_add, walk_link h hm] using ih

/-- A walk that arrives also does so with a higher limit. -/
theorem walk_mono {k l : Nat} {t u : Trail} {parts : List Part}
    (h : fs.walk actor true k t parts = .ok u) (hkl : k ≤ l) :
    fs.walk actor true l t parts = .ok u := by
  rcases fs.walk_add actor k t parts with hlimit | hadd
  · rw [h] at hlimit; cases hlimit
  · rw [← h, ← hadd (l - k)]
    congr 1
    omega

/-- **Walks in a row.**  A walk that arrives uses up some links; with these put aside, a
    longer path goes on from there with the rest of them. -/
theorem walk_append {k : Nat} {t v : Trail} {p : List Part}
    (h : fs.walk actor true k t p = .ok v) :
    ∃ j ≤ k, ∀ i q, fs.walk actor true (i + j) t (p ++ q) = fs.walk actor true i v q := by
  induction k, t, p using fs.walk_induction actor with
  | nil k t =>
    rw [walk_nil] at h
    cases h
    exact ⟨0, Nat.zero_le k, fun _ _ => rfl⟩
  | stuck k t p rest e hs => rw [walk_stuck hs] at h; cases h
  | here k t rest hd ih =>
    rw [walk_here hd] at h
    obtain ⟨j, hj, hwalk⟩ := ih h
    exact ⟨j, hj, fun i q => by rw [List.cons_append, walk_here hd, hwalk]⟩
  | up k t rest hd ih =>
    rw [walk_up hd] at h
    obtain ⟨j, hj, hwalk⟩ := ih h
    exact ⟨j, hj, fun i q => by rw [List.cons_append, walk_up hd, hwalk]⟩
  | plain k t s rest m hs hm ih =>
    rw [walk_plain hs hm] at h
    obtain ⟨j, hj, hwalk⟩ := ih h
    exact ⟨j, hj, fun i q => by rw [List.cons_append, walk_plain hs hm, hwalk]⟩
  | limit t s rest m target hs hm => rw [walk_limit hs hm] at h; cases h
  | link k t s rest m target hs hm ih =>
    rw [walk_link hs hm] at h
    obtain ⟨j, hj, hwalk⟩ := ih h
    -- the link followed here is one more that has to be put aside
    refine ⟨j + 1, Nat.succ_le_succ hj, fun i q => ?_⟩
    rw [List.cons_append, ← Nat.add_assoc, walk_link hs hm, ← List.append_assoc, hwalk]

/-! ### Looking up

Looking for a name is the one place where permissions come into a walk.
-/

/-- Looking for a name in a directory asks for the permission to search, then for the length of
    the name, then for an entry. -/
theorem lookUp_of_inode {d : Nat} {i : Inode} {entries : Entries Nat}
    (hi : fs.inode? d = some i) (hentries : i.content = .directory entries) (r : Trail)
    (s : String) :
    fs.lookUp actor (d :: r) s
      = if i.permits actor .search = false then .error .accessDenied
        else if maxName < s.utf8ByteSize then .error .nameTooLong
        else (Entries.find? s entries).elim (.error .notFound) .ok := by
  obtain ⟨mode, owner, content⟩ := i
  obtain rfl : content = .directory entries := hentries
  simp only [lookUp, hi, Bool.not_eq_true']
  cases Entries.find? s entries <;> rfl

/-- What is no directory has no names in it, whoever asks. -/
theorem lookUp_of_no_entries {d : Nat} (hd : fs.entries? d = none) (r : Trail) (s : String) :
    fs.lookUp actor (d :: r) s = .error .notDirectory := by
  rcases hi : fs.inode? d with _ | ⟨mode, owner, file | entries | target⟩
  case some.directory =>
    rw [entries?, hi] at hd
    cases hd
  all_goals rw [lookUp, hi]

/-- A name is found exactly if the place is a directory which the actor may search, the name is
    not too long, and there is an entry. -/
theorem lookUp_eq_ok_iff {t : Trail} {s : String} {m : Nat} :
    fs.lookUp actor t s = .ok m ↔
      ∃ d r i, t = d :: r ∧ fs.inode? d = some i ∧ i.permits actor .search = true ∧
        s.utf8ByteSize ≤ maxName ∧ fs.entryIn? d s = some m := by
  cases t with
  | nil => simp [lookUp]
  | cons d r =>
    cases hdir : fs.entries? d with
    | none => simp [lookUp_of_no_entries hdir, entryIn?, hdir]
    | some entries =>
      obtain ⟨mode, owner, hi⟩ := entries_eq_some_iff.mp hdir
      have hentry : fs.entryIn? d s = Entries.find? s entries := by rw [entryIn?, hdir]; rfl
      rw [lookUp_of_inode hi rfl]
      by_cases hp : Inode.permits ⟨mode, owner, .directory entries⟩ actor .search = true
      · by_cases hs : s.utf8ByteSize ≤ maxName
        · cases hf : Entries.find? s entries <;> simp [hp, hs, hi, hentry, hf, Nat.not_lt.mpr hs]
        · simp [hp, hs, Nat.lt_of_not_le hs]
      · simp [hp, hi]

/-- What is found is an entry of the directory, whoever found it. -/
theorem entry_of_lookUp {d m : Nat} {r : Trail} {s : String}
    (h : fs.lookUp actor (d :: r) s = .ok m) : fs.entryIn? d s = some m := by
  obtain ⟨d', r', i, ht, -, -, -, he⟩ := lookUp_eq_ok_iff.mp h
  obtain ⟨rfl, rfl⟩ := List.cons.inj ht
  exact he

/-- The superuser finds what anyone finds, for whom searching is one condition more. -/
theorem lookUp_superuser {t : Trail} {s : String} {m : Nat}
    (h : fs.lookUp actor t s = .ok m) : fs.lookUp .superuser t s = .ok m := by
  obtain ⟨d, r, i, ht, hi, -, hs, he⟩ := lookUp_eq_ok_iff.mp h
  exact lookUp_eq_ok_iff.mpr ⟨d, r, i, ht, hi, rfl, hs, he⟩

/-- The superuser gets where anyone gets, with the same number of links. -/
theorem walk_superuser {k : Nat} {t u : Trail} {parts : List Part}
    (h : fs.walk actor true k t parts = .ok u) :
    fs.walk .superuser true k t parts = .ok u := by
  induction k, t, parts using fs.walk_induction actor with
  | nil k t => rw [walk_nil] at h ⊢; exact h
  | stuck k t p rest e hs => rw [walk_stuck hs] at h; cases h
  | here k t rest hd ih => rw [walk_here hd] at h ⊢; exact ih h
  | up k t rest hd ih => rw [walk_up hd] at h ⊢; exact ih h
  | plain k t s rest m hs hm ih =>
    rw [walk_plain hs hm] at h
    rw [walk_plain (lookUp_superuser hs) hm]
    exact ih h
  | limit t s rest m target hs hm => rw [walk_limit hs hm] at h; cases h
  | link k t s rest m target hs hm ih =>
    rw [walk_link hs hm] at h
    rw [walk_link (lookUp_superuser hs) hm]
    exact ih h

/-! ### Where a path leads

A path that an actor can follow names a file if what it leads to is one. The converse fails,
because of permissions and limits, and that is intended: what a path names must not change when a
limit is met.
-/

/-- Whether the parts of a path lead from a place to a number, however many symbolic
    links are on the way. -/
def Leads (fs : FileSystem) (actor : Actor) (t : Trail) (parts : List Part) (n : Nat) : Prop :=
  ∃ k u, fs.walk actor true k t parts = .ok (n :: u)

/-- Whether a path names the file under a number.  This asks neither for permissions nor
    for the limit of links. -/
def Names (fs : FileSystem) (path : String) (n : Nat) : Prop :=
  (fs.file? n).isSome ∧ fs.Leads .superuser (base path) (partsOf path) n

/-- Whether two paths name one file, be it through symbolic links or as two entries of
    directories. -/
def SameFile (fs : FileSystem) (p q : String) : Prop := ∃ n, fs.Names p n ∧ fs.Names q n

/-- Whether two paths name one file does not depend on their order. -/
theorem SameFile.symm {p q : String} (h : fs.SameFile p q) : fs.SameFile q p := by
  obtain ⟨n, hp, hq⟩ := h
  exact ⟨n, hq, hp⟩

/-- Two walks along the same parts that arrive do so at the same place, whatever their limits
    are. -/
theorem walk_unique {k l : Nat} {t u v : Trail} {parts : List Part}
    (hu : fs.walk actor true k t parts = .ok u) (hv : fs.walk actor true l t parts = .ok v) :
    u = v := by
  have hu' := walk_mono hu (Nat.le_max_left k l)
  have hv' := walk_mono hv (Nat.le_max_right k l)
  exact Except.ok.inj (hu'.symm.trans hv')

/-- A path leads to one number at most. -/
theorem Leads.unique {t : Trail} {parts : List Part} {m n : Nat}
    (hm : fs.Leads actor t parts m) (hn : fs.Leads actor t parts n) : m = n := by
  obtain ⟨k, u, hu⟩ := hm
  obtain ⟨l, v, hv⟩ := hn
  exact (List.cons.inj (walk_unique hu hv)).1

/-- A path names one file at most. -/
theorem Names.unique {path : String} {m n : Nat} (hm : fs.Names path m)
    (hn : fs.Names path n) : m = n :=
  hm.2.unique hn.2

/-- The superuser is led where anyone is led. -/
theorem Leads.superuser {t : Trail} {parts : List Part} {n : Nat}
    (h : fs.Leads actor t parts n) : fs.Leads .superuser t parts n := by
  obtain ⟨k, u, hu⟩ := h
  exact ⟨k, u, walk_superuser hu⟩

/-! ### Beyond a file -/

/-- No part of a path can be taken from a file, be it a name, a dot or two. -/
theorem walk_from_file {n : Nat} (h : (fs.file? n).isSome) (k : Nat) (u : Trail) (p : Part)
    (rest : List Part) :
    fs.walk actor true k (n :: u) (p :: rest) = .error .notDirectory := by
  obtain ⟨mode, owner, bytes, hi⟩ := file_isSome_iff.mp h
  refine walk_stuck ?_ k rest
  cases p <;> simp [partFault?, requireDirectory, lookUp, hi]

/-- **Beyond a file** nothing is found: a path that goes on from there fails, at the file
    unless the limit of links is met before. -/
theorem walk_beyond_file {t : Trail} {parts : List Part} {n : Nat}
    (h : fs.Leads actor t parts n) (hn : (fs.file? n).isSome) (k : Nat) (p : Part)
    (rest : List Part) :
    fs.walk actor true k t (parts ++ p :: rest) = .error .tooManyLinks
      ∨ fs.walk actor true k t (parts ++ p :: rest) = .error .notDirectory := by
  obtain ⟨l, u, hu⟩ := h
  obtain ⟨j, -, hwalk⟩ := walk_append hu
  -- with the links for the way to the file on top of `k`, the walk does get there
  have hbeyond : fs.walk actor true (k + j) t (parts ++ p :: rest) = .error .notDirectory := by
    rw [hwalk, walk_from_file hn]
  rcases fs.walk_add actor k t (parts ++ p :: rest) with hlimit | hadd
  · exact .inl hlimit
  · exact .inr (by rw [← hadd j, hbeyond])

end SchemaEmbed.FileSystem
