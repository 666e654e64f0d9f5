import SchemaEmbed.Proofs.Toml.Inline

namespace SchemaEmbed.Toml

/-!
# The first line of a TOML text

Which format a text has is found out by trying. To tell a text of another format from one of TOML
it helps to know what its first line must have. A key does not reach over the end of its line, so
what begins with one has an equals sign there:

* `OnLine` — what is left of a text on its first line;
* `onLine_readKeyParts` — **what follows a key** is on its line;
* `equals_of_readTable` — **a text that begins with a key** and is read has an equals sign on its
  first line.

A key can be a string in quotes and have any character in it, the break too; but there it is
written by an escape, and strings of several lines are no keys.
-/

/-- Whether what is left of a text is on its first line: no break was read. As a relation between
    a text and what is left of it, this goes with the readers one after the other. -/
def OnLine (rest s : List Char) : Prop := ∃ before, s = before ++ rest ∧ '\n' ∉ before

namespace OnLine

variable {r s t : List Char}

/-- A text of which nothing was read is on its first line. -/
theorem refl (s : List Char) : OnLine s s := ⟨[], rfl, List.not_mem_nil⟩

/-- Reading twice on one line leaves what the second reading leaves. -/
theorem trans (hrs : OnLine r s) (hst : OnLine s t) : OnLine r t := by
  obtain ⟨before, rfl, hbefore⟩ := hrs
  obtain ⟨before', rfl, hbefore'⟩ := hst
  exact ⟨before' ++ before, by simp, by simp [hbefore, hbefore']⟩

/-- One more character at the head of a text is one more that was read, if it is no break. -/
theorem cons (h : OnLine r s) {c : Char} (hc : c ≠ '\n') : OnLine r (c :: s) := by
  obtain ⟨before, rfl, hbefore⟩ := h
  exact ⟨c :: before, rfl, by simp [hc.symm, hbefore]⟩

/-- What is left after characters of a kind that the break is not of is on the line. -/
theorem dropWhile {p : Char → Bool} (hp : p '\n' = false) (s : List Char) :
    OnLine (s.dropWhile p) s := by
  refine ⟨s.takeWhile p, List.takeWhile_append_dropWhile.symm, fun h => ?_⟩
  have hbreak := List.all_eq_true.mp List.all_takeWhile _ h
  rw [hp] at hbreak
  cases hbreak

end OnLine

/-! ### Strings on one line

In a string a break can only be written by an escape, and the characters of an escape are letters
and digits. So what follows the string is on the line on which it began.
-/

/-- Whatever the base, a number is written with hexadecimal digits only, since these are the
    digits that are known. -/
theorem hexValue_of_numberInBase {base n : Nat} {s : List Char} (h : numberInBase base s = some n) :
    ∀ c ∈ s, hexValue? c ≠ none := by
  unfold numberInBase at h
  split at h
  · cases h
  · -- on the digits that are still to be read, after any number
    generalize 0 = start at h
    induction s generalizing start with
    | nil => exact List.forall_mem_nil _
    | cons c s ih =>
      rw [List.foldlM_cons] at h
      obtain ⟨next, hnext, h⟩ := Option.bind_eq_some_iff.mp h
      obtain ⟨d, hd, -⟩ := Option.bind_eq_some_iff.mp hnext
      refine List.forall_mem_cons.mpr ⟨by simp [hd], ?_⟩
      cases s with
      | nil => exact List.forall_mem_nil _
      | cons => exact ih (by simp) next h

/-- What follows an escape is on its line: neither a letter nor the digits of a code point are
    breaks. -/
theorem onLine_readEscape {s rest : List Char} {c : Char} (h : readEscape s = .ok (c, rest)) :
    OnLine rest s := by
  cases s with
  | nil => cases h
  | cons d s =>
    have hd : d ≠ '\n' := by
      rintro rfl
      cases h
    rw [readEscape] at h
    split at h
    · cases h
      exact (OnLine.refl _).cons hd
    · next width _ _ =>
      split at h
      · cases h
      · split at h
        · next x hx =>
          cases h
          -- the digits of a code point are no breaks
          obtain ⟨n, hn, -⟩ := Option.bind_eq_some_iff.mp hx
          refine OnLine.cons ⟨s.take width, (List.take_append_drop width s).symm,
            fun hbreak => ?_⟩ hd
          exact hexValue_of_numberInBase hn _ hbreak (by decide)
        · cases h
    · cases h

/-- What follows a string between double quotes is on the line of the string: a break in it is a
    control character, and is refused. -/
theorem onLine_readBasicFrom {fuel : Nat} {read s rest : List Char} {str : String}
    (h : readBasicFrom fuel read s = .ok (str, rest)) : OnLine rest s := by
  induction fuel generalizing read s with
  | zero => cases h
  | succ fuel ih =>
    unfold readBasicFrom at h
    split at h
    · cases h
    · cases h
      exact (OnLine.refl _).cons (by decide)
    · obtain ⟨⟨c, left⟩, hescape, h⟩ := bind_eq_ok_iff.mp h
      exact ((ih h).trans (onLine_readEscape hescape)).cons (by decide)
    · split at h
      · cases h
      · next c left _ _ hcontrol =>
        refine (ih h).cons ?_
        rintro rfl
        exact hcontrol (by decide)

/-- What follows a string between single quotes is on the line of the string. -/
theorem onLine_readLiteral {s rest : List Char} {str : String}
    (h : readLiteral s = .ok (str, rest)) : OnLine rest s := by
  unfold readLiteral at h
  dsimp only at h
  split at h
  · cases h
  · next hcontrol =>
    split at h
    · next quote left hquote =>
      cases h
      have htext : s = s.takeWhile (· != '\'') ++ quote :: rest := by
        rw [← hquote, List.takeWhile_append_dropWhile]
      -- what the characters before it stop at is a quote
      have hq : quote = '\'' := by
        have hhead := List.head?_dropWhile_not (· != '\'') s
        rw [hquote] at hhead
        simpa using hhead
      refine ⟨s.takeWhile (· != '\'') ++ [quote], by rw [List.append_assoc]; exact htext, ?_⟩
      simp only [List.any_eq_true, not_exists, not_and, Bool.not_eq_true] at hcontrol
      simp only [List.mem_append, List.mem_singleton, hq, not_or]
      exact ⟨fun hbreak => absurd (hcontrol _ hbreak) (by decide), by decide⟩
    · cases h

/-! ### Keys

A key has parts with dots between them, and blanks around the dots. None of these is a break, nor
is one in a part.
-/

/-- What follows a part of a key, bare or between quotes, is on the line of the key. -/
theorem onLine_readKeyPart {s rest : List Char} {part : String}
    (h : readKeyPart s = .ok (part, rest)) : OnLine rest s := by
  unfold readKeyPart at h
  split at h
  · next result hstring =>
    -- the two kinds of strings with three quotes are refused in a key
    unfold readString? at hstring
    split at hstring
    · cases hstring; cases h
    · cases hstring; cases h
    · cases hstring
      exact (onLine_readBasicFrom h).cons (by decide)
    · cases hstring
      exact (onLine_readLiteral h).cons (by decide)
    · cases hstring
  · dsimp only at h
    split at h
    · cases h
    · cases h
      have hword : s.drop (s.takeWhile isBare).length = s.dropWhile isBare := by
        have hleft : (s.takeWhile isBare ++ s.dropWhile isBare).drop (s.takeWhile isBare).length
            = s.dropWhile isBare := List.drop_left
        rwa [List.takeWhile_append_dropWhile] at hleft
      rw [hword]
      exact OnLine.dropWhile (by decide) s

/-- **What follows a key** is on its line, however many parts it has. -/
theorem onLine_readKeyParts {count : Nat} {s rest : List Char} {parts : List String}
    (h : readKeyParts count s = .ok (parts, rest)) : OnLine rest s := by
  induction count generalizing s parts with
  | zero => cases h
  | succ count ih =>
    rw [readKeyParts] at h
    obtain ⟨⟨part, left⟩, hpart, h⟩ := bind_eq_ok_iff.mp h
    have hleft : OnLine (skipBlanks left) s :=
      ((OnLine.dropWhile (by decide) left).trans (onLine_readKeyPart hpart)).trans
        (OnLine.dropWhile (by decide) s)
    dsimp only at h
    split at h
    · next more hdot =>
      obtain ⟨⟨parts', left'⟩, hparts, h⟩ := bind_eq_ok_iff.mp h
      cases h
      rw [hdot] at hleft
      exact ((ih hparts).trans ((OnLine.refl _).cons (by decide))).trans hleft
    · cases h
      exact hleft

/-! ### Lines

After a key the reader wants an equals sign, and between the two there are only blanks. A text that
begins with a bracket has a header there, and need not have such a sign.
-/

/-- The first line of a text, without the break at its end. -/
def firstLine (s : List Char) : List Char := s.takeWhile (· != '\n')

/-- The equals sign after a key is on the line of the key. -/
theorem equals_of_readKeyAndSign {s rest : List Char} {key : Key}
    (h : readKeyAndSign s = .ok (key, rest)) : '=' ∈ firstLine s := by
  rw [readKeyAndSign] at h
  obtain ⟨⟨key', left⟩, hkey, h⟩ := bind_eq_ok_iff.mp h
  obtain ⟨⟨parts, left'⟩, hparts, hkey⟩ := bind_eq_ok_iff.mp hkey
  cases hkey
  dsimp only at h
  split at h
  · obtain ⟨before, rfl, hbefore⟩ := onLine_readKeyParts hparts
    have hline : ∀ c ∈ before, (c != '\n') = true := fun c hc => by
      rw [bne_iff_ne]
      rintro rfl
      exact hbefore hc
    rw [firstLine, List.takeWhile_append_of_pos hline]
    simp
  · cases h

/-- **A text that begins with a key** and is read has an equals sign on its first line. Its first
    character is not skipped, and begins neither a header nor a byte order mark. -/
theorem equals_of_readTable {text : String} {entries : List (String × Item)} {c : Char}
    {t : List Char} (h : readTable text = .ok entries) (htext : text.toList = c :: t)
    (hc : IsSolid c) (hbracket : c ≠ '[') (hmark : c ≠ '\ufeff') : '=' ∈ firstLine text.toList := by
  have hdrop : dropByteOrderMark text.toList = text.toList := by
    rw [htext]
    unfold dropByteOrderMark
    split
    · next heq => exact absurd (List.cons.inj heq).1 hmark
    · rfl
  -- nothing is skipped before the first line
  have hskip : skipSpace text.toList = .ok text.toList := by
    rw [htext]
    exact skipSpace_solid 0 hc t
  unfold readTable at h
  rw [hdrop] at h
  obtain ⟨ls, hls, -⟩ := bind_eq_ok_iff.mp h
  rw [readLines] at hls
  obtain ⟨line, hline, -⟩ := bind_eq_ok_iff.mp hls
  rw [readLine, hskip, ok_bind] at hline
  split at hline
  · next heq => rw [htext] at heq; cases heq
  · next heq => rw [htext] at heq; exact absurd (List.cons.inj heq).1 hbracket
  · next heq => rw [htext] at heq; exact absurd (List.cons.inj heq).1 hbracket
  · obtain ⟨⟨key, rest⟩, hkey, -⟩ := bind_eq_ok_iff.mp hline
    exact equals_of_readKeyAndSign hkey

end SchemaEmbed.Toml
