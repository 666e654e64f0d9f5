namespace SchemaEmbed

/-!
# Outcomes

Every part of the program that can fail gives an `Except`. The proofs take such outcomes apart and
put them together with the lemmas of this module, and never unfold the monad:

* `bind_eq_ok_iff` / `map_eq_ok_iff` / `mapError_eq_ok_iff` — what it takes for steps in a row to
  succeed;
* `Yields` — a result on a condition, and a failure without it;
* `Kept` — an outcome that stays, except that one error may become another;
* `errorOf` — the error of an outcome, if it has one; of two steps it is that of the first one to
  fail.
-/

variable {ε α β : Type}

/-- A step that succeeds goes on with its result. -/
theorem ok_bind (a : α) (f : α → Except ε β) : (Except.ok a >>= f) = f a := rfl

/-- Two steps succeed if the first does and the second does with its result. -/
theorem bind_eq_ok_iff {x : Except ε α} {f : α → Except ε β} {b : β} :
    x >>= f = .ok b ↔ ∃ a, x = .ok a ∧ f a = .ok b := by
  cases x <;> simp [bind, Except.bind]

/-- Steps in a row fail if the first one does, or if it succeeds and the second one fails with
    its result. -/
theorem bind_eq_error_iff {x : Except ε α} {f : α → Except ε β} {e : ε} :
    x >>= f = .error e ↔ x = .error e ∨ ∃ a, x = .ok a ∧ f a = .error e := by
  cases x <;> simp [bind, Except.bind]

/-- Steps in a row are the same if what follows is the same for every result that the first one
    can have. -/
theorem bind_congr_of_ok {x : Except ε α} {f g : α → Except ε β}
    (h : ∀ a, x = .ok a → f a = g a) : x >>= f = x >>= g := by
  cases x with
  | error e => rfl
  | ok a => exact h a rfl

/-- What is made of the result of a step is there exactly if the step succeeds. -/
theorem map_eq_ok_iff {x : Except ε α} {f : α → β} {b : β} :
    x.map f = .ok b ↔ ∃ a, x = .ok a ∧ f a = b := by
  cases x <;> simp [Except.map]

/-- Making something of the result of a step leaves its error as it is. -/
theorem map_eq_error_iff {x : Except ε α} {f : α → β} {e : ε} :
    x.map f = .error e ↔ x = .error e := by
  cases x <;> simp [Except.map]

/-- A success has no error to report in another way. -/
@[simp] theorem mapError_ok {δ : Type} (g : ε → δ) (a : α) :
    (Except.ok a : Except ε α).mapError g = .ok a := rfl

/-- An error is reported in another way. -/
@[simp] theorem mapError_error {δ : Type} (g : ε → δ) (e : ε) :
    (Except.error e : Except ε α).mapError g = .error (g e) := rfl

/-- Reporting errors in another way does not change which steps succeed, or with what. -/
theorem mapError_eq_ok_iff {δ : Type} {g : ε → δ} {x : Except ε α} {a : α} :
    x.mapError g = .ok a ↔ x = .ok a := by
  cases x <;> simp

/-- An error that is reported is what was made of an error that was there. -/
theorem mapError_eq_error_iff {δ : Type} {g : ε → δ} {x : Except ε α} {e : δ} :
    x.mapError g = .error e ↔ ∃ e', x = .error e' ∧ g e' = e := by
  cases x <;> simp

/-! ### Outcomes on a condition

A claim that something fails unless a condition holds has two halves, and both have to be carried
through every step. `Yields` carries them together.
-/

/-- Whether an outcome is `a` if `fits` holds, and a failure otherwise, whatever the error is. -/
def Yields {α ε : Type} (fits : Prop) (r : Except ε α) (a : α) : Prop :=
  (fits → r = .ok a) ∧ (¬ fits → ∃ e, r = .error e)

namespace Yields

variable {fits fits' : Prop} {r : Except ε α} {a : α}

/-- An outcome that is a success has the result on any condition that holds. -/
theorem of_ok (h : r = .ok a) (hfits : fits) : Yields fits r a :=
  ⟨fun _ => h, fun hnot => absurd hfits hnot⟩

/-- An outcome that is a failure has the result on any condition that does not hold. -/
theorem of_error {e : ε} (h : r = .error e) (hfits : ¬ fits) : Yields fits r a :=
  ⟨fun hyes => absurd hyes hfits, fun _ => ⟨e, h⟩⟩

/-- The condition may be replaced by one that says the same. -/
theorem congr (h : Yields fits r a) (hiff : fits ↔ fits') : Yields fits' r a :=
  ⟨fun hfits => h.1 (hiff.mpr hfits), fun hnot => h.2 (mt hiff.mp hnot)⟩

/-- What is made of the result is there on the same condition. -/
theorem map (h : Yields fits r a) (f : α → β) : Yields fits (r.map f) (f a) := by
  refine ⟨fun hfits => by rw [h.1 hfits]; rfl, fun hnot => ?_⟩
  obtain ⟨e, he⟩ := h.2 hnot
  exact ⟨e, by rw [he]; rfl⟩

/-- How a failure is reported has no part in whether there is one. -/
theorem mapError {δ : Type} (h : Yields fits r a) (g : ε → δ) : Yields fits (r.mapError g) a := by
  refine ⟨fun hfits => by rw [h.1 hfits]; rfl, fun hnot => ?_⟩
  obtain ⟨e, he⟩ := h.2 hnot
  exact ⟨g e, by rw [he]; rfl⟩

/-- One step after another: both conditions must hold. -/
theorem bind {f : α → Except ε β} {b : β} (h : Yields fits r a) (h' : Yields fits' (f a) b) :
    Yields (fits ∧ fits') (r >>= f) b := by
  constructor
  · rintro ⟨hfits, hfits'⟩
    rw [h.1 hfits, ok_bind]
    exact h'.1 hfits'
  · -- the step that fails first fails the whole
    intro hnot
    by_cases hfits : fits
    · rw [h.1 hfits, ok_bind]
      exact h'.2 fun hfits' => hnot ⟨hfits, hfits'⟩
    · obtain ⟨e, he⟩ := h.2 hfits
      exact ⟨e, by rw [he]; rfl⟩

/-- A step after which nothing can fail leaves the condition as it is. -/
theorem bind_ok {f : α → Except ε β} {b : β} (h : Yields fits r a) (hf : f a = .ok b) :
    Yields fits (r >>= f) b :=
  (h.bind (.of_ok hf trivial)).congr (iff_of_eq (and_true fits))

end Yields

/-! ### Outcomes that stay

A file that is written through a temporary one takes the place of a symbolic link, and then a path
through that place needs one link less. If it failed at the limit of links before, it gets further
now and fails for another reason. `Kept` allows this one change of an error, and none of a result.
-/

/-- Whether an outcome stays, except that the error `limit` may become `beyond`. -/
inductive Kept (limit beyond : ε) : (before after : Except ε α) → Prop
  | same {r} : Kept limit beyond r r
  | beyond : Kept limit beyond (.error limit) (.error beyond)

namespace Kept

variable {limit beyond : ε} {a b c : Except ε α}

/-- A result that is there stays, and none appears that was not there. -/
theorem ok_iff (h : Kept limit beyond a b) (x : α) : a = .ok x ↔ b = .ok x := by
  cases h with
  | same => rfl
  | beyond => simp

/-- What is kept twice is kept. After the error has become another one it can only stay. -/
theorem trans (hab : Kept limit beyond a b) (hbc : Kept limit beyond b c) :
    Kept limit beyond a c := by
  cases hbc with
  | same => exact hab
  | beyond =>
    -- the middle outcome is named first, so that the cases of `hab` unify with it
    generalize hb : Except.error limit = b at hab
    cases hab with
    | same => rw [← hb]; exact .beyond
    | beyond => exact .beyond

/-- What goes on alike from an outcome that is kept is kept. -/
theorem bind {f g : α → Except ε β} (h : Kept limit beyond a b)
    (hfg : ∀ x, a = .ok x → Kept limit beyond (f x) (g x)) :
    Kept limit beyond (a >>= f) (b >>= g) := by
  cases h with
  | same =>
    cases a with
    | error e => exact .same
    | ok x => exact hfg x rfl
  | beyond => exact .beyond

/-- Errors that are reported in another way are kept up to that. -/
theorem mapError {δ : Type} (g : ε → δ) (h : Kept limit beyond a b) :
    Kept (g limit) (g beyond) (a.mapError g) (b.mapError g) := by
  cases h with
  | same => exact .same
  | beyond => exact .beyond

end Kept

/-! ### The error of an outcome

Where only the error matters, as in a search for the first thing that does not fit, outcomes of
different types are compared by what they fail with.
-/

/-- The error of an outcome, if it has one. -/
def errorOf : Except ε α → Option ε
  | .ok _ => none
  | .error e => some e

/-- An outcome has an error exactly if it fails with it. -/
theorem errorOf_eq_some_iff {x : Except ε α} {e : ε} : errorOf x = some e ↔ x = .error e := by
  cases x <;> simp [errorOf]

/-- An outcome has no error exactly if it succeeds. -/
theorem errorOf_eq_none_iff {x : Except ε α} : errorOf x = none ↔ ∃ a, x = .ok a := by
  cases x <;> simp [errorOf]

/-- Making something of the result changes nothing about the error. -/
theorem errorOf_map (x : Except ε α) (f : α → β) : errorOf (x.map f) = errorOf x := by
  cases x <;> rfl

/-- Of two steps whose results are put together, the first one that fails has the error. -/
theorem errorOf_both {γ : Type} (x : Except ε α) (y : Except ε β) (f : α → β → γ) :
    errorOf (do let a ← x; let b ← y; return f a b) = (errorOf x).or (errorOf y) := by
  cases x <;> cases y <;> rfl

end SchemaEmbed
