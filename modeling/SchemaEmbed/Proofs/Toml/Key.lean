import SchemaEmbed.Proofs.Toml.Quoted
import SchemaEmbed.Toml.Document
import SchemaEmbed.Toml.Printer

namespace SchemaEmbed.Toml

/-!
# Keys are read as they were written

A key is bare if it can be, and otherwise a string between double quotes, or between single ones
where these spare an escape. The reader tells these apart by the first character, and a bare key
ends where a character comes that cannot be part of it.

* `readKeyPart_keyChars` — a key is read back, bare or between quotes;
* `readKeyAndSign_keyChars` — so is the key of an entry, with the equals sign after it;
* `readKey_pathChars` — so is the path of a header, if it has no more parts than are read.
-/

variable {t : List Char}

/-! ### One part

What a key is written as and what it is read from begin with the same characters, so `StartsKey`
serves for both: it says what a key can begin with, and what cannot continue one.
-/

/-- Whether a character can begin a key as it is written: it is that of a bare key, or one of the
    quotes. -/
def StartsKey (c : Char) : Prop := isBare c = true ∨ c = '"' ∨ c = '\''

/-- A character that cannot begin a key is different from the first one of a key. For a fixed
    character the hypothesis is decided. -/
theorem StartsKey.ne {c d : Char} (hc : StartsKey c) (hd : ¬ StartsKey d) : c ≠ d := by
  rintro rfl
  exact hd hc

instance (c : Char) : Decidable (StartsKey c) :=
  inferInstanceAs (Decidable (isBare c = true ∨ c = '"' ∨ c = '\''))

/-- A key begins with a character of a bare key or with a quote, also if it is empty. -/
theorem keyChars_head (s : List Char) : ∃ c rest, keyChars s = c :: rest ∧ StartsKey c := by
  unfold keyChars
  dsimp only
  split
  · next h =>
    simp only [Bool.and_eq_true, Bool.not_eq_true', List.isEmpty_eq_false_iff,
      List.all_eq_true] at h
    obtain ⟨c, rest, rfl⟩ := List.exists_cons_of_ne_nil h.1
    exact ⟨c, rest, rfl, .inl (h.2 c List.mem_cons_self)⟩
  split
  · exact ⟨'\'', _, rfl, .inr (.inr rfl)⟩
  · exact ⟨'"', _, rfl, .inr (.inl rfl)⟩

/-- A key has no blanks before it, so none are skipped. -/
theorem skipBlanks_keyChars (s t : List Char) : skipBlanks (keyChars s ++ t) = keyChars s ++ t := by
  obtain ⟨c, rest, hkey, hc⟩ := keyChars_head s
  have hblank : isBlank c = false := by
    simp only [isBlank, Bool.or_eq_false_iff, beq_eq_false_iff_ne]
    exact ⟨hc.ne (by decide), hc.ne (by decide)⟩
  rw [hkey, List.cons_append, skipBlanks, List.dropWhile_cons, hblank]
  rfl

/-- No key begins where another character stands. -/
theorem not_startsKey_head {c : Char} (hc : ¬ StartsKey c) {t : List Char} :
    ∀ d ∈ (c :: t).head?, ¬ StartsKey d := by
  rintro d ⟨⟩
  exact hc

/-- A bare key is no string: it begins with neither of the quotes. -/
theorem readString_bare {s : List Char} (hne : s ≠ []) (hs : ∀ c ∈ s, isBare c = true)
    (t : List Char) : readString? true (s ++ t) = none := by
  obtain ⟨c, rest, rfl⟩ := List.exists_cons_of_ne_nil hne
  have hc : isBare c = true := hs c List.mem_cons_self
  have hquote (d : Char) (hd : isBare d = false) : c ≠ d := by
    rintro rfl
    rw [hc] at hd
    cases hd
  rw [List.cons_append]
  unfold readString?
  split
  · next heq => exact absurd (List.cons.inj heq).1 (hquote '"' (by decide))
  · next heq => exact absurd (List.cons.inj heq).1 (hquote '\'' (by decide))
  · next heq => exact absurd (List.cons.inj heq).1 (hquote '"' (by decide))
  · next heq => exact absurd (List.cons.inj heq).1 (hquote '\'' (by decide))
  · rfl

/-- A bare key ends where no key could begin, or with the text. -/
theorem takeWhile_bare {s : List Char} (hs : ∀ c ∈ s, isBare c = true)
    (ht : ∀ c ∈ t.head?, ¬ StartsKey c) : (s ++ t).takeWhile isBare = s := by
  have hstop : t.takeWhile isBare = [] := by
    cases t with
    | nil => rfl
    | cons c t =>
      have hc : ¬ isBare c = true := fun hbare => ht c rfl (.inl hbare)
      rw [List.takeWhile_cons, if_neg hc]
  rw [List.takeWhile_append_of_pos hs, hstop, List.append_nil]

/-- **A key is read back** if what stands after it does not continue it. The cases are those of
    the writer. -/
theorem readKeyPart_keyChars (k : String) (ht : ∀ c ∈ t.head?, ¬ StartsKey c) :
    readKeyPart (keyChars k.toList ++ t) = .ok (k, t) := by
  have hends : EndsString t := by
    constructor
    · exact fun h => ht '"' h (.inr (.inl rfl))
    · exact fun h => ht '\'' h (.inr (.inr rfl))
  -- the three forms of a key: bare, between single quotes, and between double ones
  unfold keyChars
  dsimp only
  split
  · next h =>
    simp only [Bool.and_eq_true, Bool.not_eq_true', List.isEmpty_eq_false_iff,
      List.all_eq_true] at h
    have hnil : k.toList.isEmpty = false := by simpa using h.1
    simp only [readKeyPart, readString_bare h.1 h.2 t, takeWhile_bare h.2 ht, hnil,
      Bool.false_eq_true, ↓reduceIte, List.drop_left, String.ofList_toList]
  split
  · next h =>
    simp only [Bool.and_eq_true, Bool.not_eq_true', beq_iff_eq, Bool.or_eq_true] at h
    have hne : k.toList ≠ [] := by
      intro hnil
      rw [hnil] at h
      exact absurd h.2 (by decide)
    have hread := readString_literal true hne (plain_of_line h.1.1.1 h.1.1.2)
      (not_mem_of_longestRun h.1.2) t
    rw [readKeyPart, hread, String.ofList_toList]
  · rw [readKeyPart, readString_basic true k.toList hends, String.ofList_toList]

/-! ### The key of an entry

The writer never puts dots in the key of an entry: each entry is written in the table that it
belongs to, and so its key has one part.
-/

/-- **The key of an entry** is read with the equals sign after it. -/
theorem readKeyAndSign_keyChars (k : String) (t : List Char) :
    readKeyAndSign (keyChars k.toList ++ ' ' :: '=' :: ' ' :: t) = .ok (⟨[], k⟩, skipBlanks t) := by
  have hpart : readKeyPart (keyChars k.toList ++ ' ' :: '=' :: ' ' :: t)
      = .ok (k, ' ' :: '=' :: ' ' :: t) :=
    readKeyPart_keyChars k (by simp only [List.head?_cons, Option.mem_def]; rintro c ⟨⟩; decide)
  have hparts : readKeyParts maxLevels (keyChars k.toList ++ ' ' :: '=' :: ' ' :: t)
      = .ok ([k], '=' :: ' ' :: t) := by
    rw [maxLevels, readKeyParts, skipBlanks_keyChars, hpart]
    rfl
  rw [readKeyAndSign, readKey, hparts]
  rfl

/-! ### The path of a header

A path has one part for each table on the way. The reader takes no more parts than it takes levels,
so a path that is too long is refused, whatever its parts are.
-/

/-- The path of a header is its parts with a dot between them. -/
theorem pathChars_cons (k : String) {path : List String} (hne : path ≠ []) :
    pathChars (k :: path) = keyChars k.toList ++ '.' :: pathChars path := by
  obtain ⟨l, path, rfl⟩ := List.exists_cons_of_ne_nil hne
  simp [pathChars]

/-- The parts of a path are read up to the closing bracket if there are no more than may be, and
    refused otherwise. -/
theorem readKeyParts_pathChars {path : List String} (hne : path ≠ []) (count : Nat)
    (t : List Char) :
    Yields (path.length ≤ count) (readKeyParts count (pathChars path ++ ']' :: t))
      (path, ']' :: t) := by
  induction path generalizing count with
  | nil => exact absurd rfl hne
  | cons k path ih =>
    cases count with
    | zero => exact .of_error rfl (Nat.not_succ_le_zero _)
    | succ count =>
      -- the last part is followed by the bracket, any other one by a dot
      by_cases hpath : path = []
      · subst hpath
        have hpart : readKeyPart (keyChars k.toList ++ ']' :: t) = .ok (k, ']' :: t) :=
          readKeyPart_keyChars k (not_startsKey_head (by decide))
        have hchars : pathChars [k] = keyChars k.toList := by simp [pathChars]
        refine .of_ok ?_ (Nat.succ_le_succ (Nat.zero_le count))
        rw [readKeyParts, hchars, skipBlanks_keyChars, hpart]
        rfl
      · have hpart : readKeyPart (keyChars k.toList ++ '.' :: (pathChars path ++ ']' :: t))
            = .ok (k, '.' :: (pathChars path ++ ']' :: t)) :=
          readKeyPart_keyChars k (not_startsKey_head (by decide))
        have hlater := (ih hpath count).bind_ok
          (f := fun r => (pure (k :: r.1, r.2) : Except Fault (List String × List Char))) rfl
        rw [pathChars_cons k hpath, List.append_assoc, List.cons_append, readKeyParts,
          skipBlanks_keyChars, hpart]
        exact hlater.congr Nat.succ_le_succ_iff.symm

/-- **The path of a header** is read back, if it has no more parts than are read, as the keys on
    the way and the last one. -/
theorem readKey_pathChars {path : List String} (hne : path ≠ []) (t : List Char) :
    Yields (path.length ≤ maxLevels) (readKey (pathChars path ++ ']' :: t))
      (⟨path.dropLast, path.getLastD ""⟩, ']' :: t) :=
  (readKeyParts_pathChars hne maxLevels t).bind_ok rfl

end SchemaEmbed.Toml
