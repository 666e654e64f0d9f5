import SchemaEmbed.Path

namespace SchemaEmbed.Path

/-!
# The case of letters in a path

A format is recognised by the extension of a path in any case of its letters. That the case is no
matter anywhere in a path, not only in the extension, needs an argument: a path is taken apart at
slashes and dots, and lower case must not make or remove one:

* `parts_lower` / `lastName?_lower` — a path is split in the same places in lower case;
* `extension?_toLower` — its extension is that of the path, in lower case.

Lower case is that of the letters A to Z. Other characters stay as they are.
-/

/-- The lower case of a letter is a letter, and a character that is no letter stays as it is. -/
theorem isAlpha_toLower_or_eq (c : Char) :
    c.isAlpha = true ∧ c.toLower.isAlpha = true ∨ c.toLower = c := by
  by_cases h : c.val ≥ 'A'.val ∧ c.val ≤ 'Z'.val
  · have hlower : c.toLower.val = c.val + ('a'.val - 'A'.val) := congrArg Char.val (dif_pos h)
    have hcode : 65 ≤ c.toNat ∧ c.toNat ≤ 90 := by
      simpa [UInt32.le_iff_toNat_le] using h
    have hsmall : c.toLower.val ≥ 'a'.val ∧ c.toLower.val ≤ 'z'.val := by
      rw [hlower]
      simp [UInt32.le_iff_toNat_le, UInt32.toNat_add]
      omega
    refine .inl ⟨?_, ?_⟩
    · show (decide (c.val ≥ 'A'.val ∧ c.val ≤ 'Z'.val) || c.isLower) = true
      rw [decide_eq_true h, Bool.true_or]
    · show (c.toLower.isUpper || (decide (c.toLower.val ≥ 'a'.val)
        && decide (c.toLower.val ≤ 'z'.val))) = true
      rw [decide_eq_true hsmall.1, decide_eq_true hsmall.2, Bool.true_and, Bool.or_true]
  · exact .inr (dif_neg h)

/-- What is no letter is not the lower case of anything else, so that a character of this kind
    is found in a text in lower case exactly where it stands in the text. -/
theorem toLower_eq_iff {c d : Char} (hd : d.isAlpha = false) : c.toLower = d ↔ c = d := by
  rcases isAlpha_toLower_or_eq c with ⟨hc, hlower⟩ | heq
  · refine iff_of_false ?_ ?_ <;> rintro rfl
    · rw [hlower] at hd
      cases hd
    · rw [hc] at hd
      cases hd
  · rw [heq]

/-- A text in lower case. -/
def lower (s : List Char) : List Char := s.map Char.toLower

/-- In lower case a path has the same parts, each in lower case: the slashes are where they were. -/
theorem parts_lower (path : List Char) : parts (lower path) = (parts path).map lower := by
  induction path with
  | nil => rfl
  | cons c rest ih =>
    have hslash : (c.toLower == '/') = (c == '/') := by
      rw [Bool.eq_iff_iff, beq_iff_eq, beq_iff_eq, toLower_eq_iff (by decide)]
    unfold parts lower at ih ⊢
    rw [List.map_cons, List.splitOn_cons_eq_if_modifyHead, List.splitOn_cons_eq_if_modifyHead, ih,
      hslash]
    split
    · rfl
    · cases List.splitOn '/' rest <;> rfl

/-- A text without letters is the lower case of itself only. -/
theorem lower_eq_iff {s t : List Char} (ht : ∀ c ∈ t, c.isAlpha = false) : lower s = t ↔ s = t := by
  induction s generalizing t with
  | nil => simp [lower]
  | cons c s ih =>
    cases t with
    | nil => simp [lower]
    | cons d t =>
      obtain ⟨hd, ht⟩ := List.forall_mem_cons.mp ht
      have htail : s.map Char.toLower = t ↔ s = t := ih ht
      rw [lower, List.map_cons, List.cons.injEq, toLower_eq_iff hd, htail, List.cons.injEq]

/-- Dots are no letters, so the names `.` and `..` keep their meaning in lower case. -/
theorem isAlpha_of_mem_dots (n : Nat) : ∀ c ∈ List.replicate n '.', c.isAlpha = false :=
  fun c hc => by rw [List.eq_of_mem_replicate hc]; rfl

/-- The name that a path ends in is the same but for the case of letters, and there is one
    exactly if there was one before. -/
theorem lastName?_lower (path : List Char) :
    lastName? (lower path) = (lastName? path).map lower := by
  -- neither the parts that do not count nor the parent have letters
  have hskip : (fun part : List Char => part == [] || part == ['.']) ∘ lower
      = fun part => part == [] || part == ['.'] := by
    funext part
    have hnil : lower part = [] ↔ part = [] := lower_eq_iff (isAlpha_of_mem_dots 0)
    have hone : lower part = ['.'] ↔ part = ['.'] := lower_eq_iff (isAlpha_of_mem_dots 1)
    rw [Function.comp_apply, Bool.eq_iff_iff, Bool.or_eq_true, Bool.or_eq_true, beq_iff_eq,
      beq_iff_eq, beq_iff_eq, beq_iff_eq, hnil, hone]
  unfold lastName?
  rw [parts_lower, ← List.map_reverse, List.dropWhile_map, hskip]
  cases (parts path).reverse.dropWhile fun part => part == [] || part == ['.'] with
  | nil => rfl
  | cons name rest =>
    have hparent : lower name = ['.', '.'] ↔ name = ['.', '.'] :=
      lower_eq_iff (isAlpha_of_mem_dots 2)
    simp only [List.map_cons, hparent]
    split <;> rfl

/-- **The extension** of a path in lower case is its extension in lower case. -/
theorem extension?_toLower (path : String) :
    extension? path.toLower = (extension? path).map String.toLower := by
  have hdot : (fun c : Char => c != '.') ∘ Char.toLower = fun c => c != '.' := by
    funext c
    rw [Function.comp_apply, Bool.eq_iff_iff, bne_iff_ne, bne_iff_ne, ne_eq, ne_eq,
      toLower_eq_iff (by decide)]
  have hlower : path.toLower.toList = lower path.toList := String.toList_map
  unfold extension?
  rw [hlower, lastName?_lower]
  cases lastName? path.toList with
  | none => rfl
  | some name =>
    -- the name is read from its end, and lower case does not mind the direction
    have hreverse : (lower name).reverse = lower name.reverse := List.map_reverse.symm
    have hlast (s : List Char) : String.ofList (lower s).reverse
        = (String.ofList s.reverse).toLower := by
      apply String.toList_injective
      show _ = ((String.ofList s.reverse).map Char.toLower).toList
      rw [String.toList_map]
      simp [lower]
    simp only [Option.map_some, Option.bind_eq_bind, Option.bind_some, hreverse]
    have hback : (lower name.reverse).dropWhile (· != '.')
        = lower (name.reverse.dropWhile (· != '.')) := by
      rw [lower, List.dropWhile_map, hdot, lower]
    have hext : (lower name.reverse).takeWhile (· != '.')
        = lower (name.reverse.takeWhile (· != '.')) := by
      rw [lower, List.takeWhile_map, hdot, lower]
    rw [hback, hext, hlast]
    split
    · next h => rw [(lower_eq_iff (isAlpha_of_mem_dots 0)).mp h]; rfl
    · next h => rw [(lower_eq_iff (isAlpha_of_mem_dots 1)).mp h]; rfl
    · -- in lower case the name is neither empty nor one dot before its last dot either
      next hnil hone =>
      split
      · next h => exact absurd (by rw [h]; rfl) hnil
      · next h => exact absurd (by rw [h]; rfl) hone
      · rfl

end SchemaEmbed.Path
