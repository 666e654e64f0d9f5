import SchemaEmbed.CommandLine
import SchemaEmbed.Proofs.Outcome

namespace SchemaEmbed

/-!
# What an accepted line asks for

What a run is asked to do is guaranteed some sense by the command line, whatever stood on it, also
arguments after two dashes and options in groups of letters:

* `Progress.IsSound` — what holds of a line as far as it is read: a key is not empty, and verbosity
  is among what was given;
* `readAll_sound` — each argument keeps it;
* `Invocation.IsConsistent` / `isConsistent_of_parse` — **an accepted line**, whatever its shape,
  names a key and asks for nothing that excludes something else.

That no two options exclude each other is checked only at the end, on the list of what was given.
So it is enough that this list is complete, and the one option that an invocation could ask for
without its being there is verbosity, which has a count of its own.
-/

/-- Whether a key is named and nothing is asked for that excludes something else. -/
structure Invocation.IsConsistent (i : Invocation) : Prop where
  key : i.options.key ≠ ""
  check : ¬ (i.options.mode = .atomic ∧ i.options.check = true)
  quiet : ¬ (i.quiet = true ∧ 0 < i.verbose)

namespace CommandLine

namespace Progress

variable {p q : Progress}

/-- What holds of a line as far as it is read: its key, if there is one, is not empty, and a
    count of verbosity has its option. -/
structure IsSound (p : Progress) : Prop where
  key : ∀ k, p.key = some k → k ≠ ""
  verbose : 0 < p.verbose → .verbose ∈ p.given

/-- What is taken up may be a key, which is refused if it is empty; everything else leaves the
    key and the count alone. -/
theorem IsSound.settle (hp : p.IsSound) (h : p.settle = .ok q) : q.IsSound := by
  unfold Progress.settle at h
  split at h
  · cases h; exact hp
  · cases h
  · next value _ =>
    split at h
    · cases h
    · split at h
      · cases h
      · next hvalue =>
        cases h
        refine ⟨fun k hk => ?_, fun hv => List.mem_append_left _ (hp.verbose hv)⟩
        cases hk
        simpa using hvalue
  all_goals
    split at h
    · cases h
    · cases h; exact ⟨hp.key, hp.verbose⟩

/-- What is pending has no part in it, so putting something off keeps it. -/
theorem IsSound.await (hp : p.IsSound) (pending : Pending) :
    ({ p with pending := pending } : Progress).IsSound := ⟨hp.key, hp.verbose⟩

/-- A flag adds itself to what was given, at the end, where nothing is lost. -/
theorem IsSound.flag {a : Argument} (hp : p.IsSound) (h : p.flag a = .ok q) : q.IsSound := by
  obtain ⟨r, hr, h⟩ := bind_eq_ok_iff.mp h
  have hr := hp.settle hr
  split at h
  · cases h
  · cases h
    exact ⟨hr.key, fun hv => List.mem_append_left _ (hr.verbose hv)⟩

/-- A degree of verbosity raises the count and gives the option along with it. -/
theorem IsSound.moreVerbose (hp : p.IsSound) (h : p.moreVerbose = .ok q) : q.IsSound := by
  obtain ⟨r, hr, h⟩ := bind_eq_ok_iff.mp h
  cases h
  exact ⟨(hp.settle hr).key, fun _ => List.mem_append_right _ List.mem_cons_self⟩

/-- Of the arguments without a value two end the line, so they have nothing to keep; the others
    are a degree of verbosity or a flag. -/
theorem IsSound.take {a : Argument} {long : Bool} (hp : p.IsSound) (h : p.take a long = .ok q) :
    q.IsSound := by
  unfold Progress.take at h
  split at h
  · obtain ⟨r, -, h⟩ := bind_eq_ok_iff.mp h
    cases h
  · obtain ⟨r, -, h⟩ := bind_eq_ok_iff.mp h
    cases h
  · exact hp.moreVerbose h
  · exact hp.flag h

/-- A text is pending after it is read, whichever file it names. -/
theorem IsSound.positional {s : String} (hp : p.IsSound) (h : p.positional s = .ok q) :
    q.IsSound := by
  unfold Progress.positional at h
  split at h
  · cases h; exact hp.await _
  · obtain ⟨r, hr, h⟩ := bind_eq_ok_iff.mp h
    have hr := hp.settle hr
    split at h <;> cases h <;> exact hr.await _

/-- Letters after one dash are arguments without a value, one after the other. -/
theorem IsSound.letters {cs : List Char} (hp : p.IsSound) (h : p.letters cs = .ok q) :
    q.IsSound := by
  induction cs generalizing p with
  | nil => cases h; exact hp
  | cons c cs ih =>
    unfold Progress.letters at h
    split at h
    case h_5 => cases h
    all_goals
      obtain ⟨r, hr, h⟩ := bind_eq_ok_iff.mp h
      exact ih (hp.take hr) h

/-- A name after two dashes puts a key off, takes its value up at once, or is an argument without
    a value. -/
theorem IsSound.word {text : List Char} (hp : p.IsSound) (h : p.word text = .ok q) :
    q.IsSound := by
  unfold Progress.word at h
  dsimp only at h
  split at h
  · cases h
  · obtain ⟨r, hr, h⟩ := bind_eq_ok_iff.mp h
    exact ((hp.settle hr).await _).settle h
  · obtain ⟨r, hr, h⟩ := bind_eq_ok_iff.mp h
    cases h
    exact (hp.settle hr).await _
  · cases h
  · exact hp.take h

end Progress

/-! ### Lines -/

/-- **Each argument** keeps what holds of a line as far as it is read. -/
theorem readAll_sound {literal : Bool} {p q : Progress} {args : List String} (hp : p.IsSound)
    (h : readAll literal p args = .ok q) : q.IsSound := by
  -- the state and whether arguments are literal change from one argument to the next
  induction args generalizing literal p with
  | nil =>
    have hsettle : p.settle = .ok q := by cases literal <;> exact h
    exact hp.settle hsettle
  | cons arg args ih =>
    cases literal with
    | true =>
      obtain ⟨r, hr, h⟩ := bind_eq_ok_iff.mp h
      exact ih (hp.positional hr) h
    | false =>
      rw [readAll] at h
      split at h
      · exact ih hp h
      · obtain ⟨r, hr, h⟩ := bind_eq_ok_iff.mp h
        exact ih (hp.word hr) h
      · obtain ⟨r, hr, h⟩ := bind_eq_ok_iff.mp h
        exact ih (hp.letters hr) h
      · split at h
        · exact ih (hp.await _) h
        · obtain ⟨r, hr, h⟩ := bind_eq_ok_iff.mp h
          exact ih (hp.positional hr) h

/-- No conflict is found exactly if no two options among those that were given exclude each
    other. -/
theorem findConflict_eq_none_iff {given : List Argument} :
    findConflict given = none ↔ ∀ a ∈ given, ∀ b ∈ given, a.excludes b = false := by
  simp [findConflict, List.findSome?_eq_none_iff, List.find?_eq_none]

/-- What a line asks for once it was read to its end names a key, which is the default one if
    none was given, and asks for nothing that excludes something else. -/
theorem Progress.IsSound.finish {p : Progress} {i : Invocation} (hp : p.IsSound)
    (h : p.finish = .ok i) : i.IsConsistent := by
  unfold Progress.finish at h
  split at h
  · cases h
  · cases h
  · next schema hconflict _ =>
    have hexcludes := findConflict_eq_none_iff.mp hconflict
    cases h
    refine ⟨?_, ?_, ?_⟩
    · cases hkey : p.key with
      | none => exact (by decide : Options.defaultKey ≠ "")
      | some k => exact hp.key k hkey
    · rintro ⟨hmode, hcheck⟩
      -- the mode is atomic only if the option was given
      by_cases hatomic : p.given.contains .atomic = true
      · have hboth := hexcludes .atomic (List.contains_iff_mem.mp hatomic) .check
          (List.contains_iff_mem.mp hcheck)
        cases hboth
      · cases (if_neg hatomic).symm.trans hmode
    · rintro ⟨hquiet, hverbose⟩
      have hboth := hexcludes .verbose (hp.verbose hverbose) .quiet
        (List.contains_iff_mem.mp hquiet)
      cases hboth

/-- **An accepted line**, whatever its shape, names a key and asks for nothing that excludes
    something else. -/
theorem isConsistent_of_parse {args : List String} {i : Invocation}
    (h : parse args = .ok (.run i)) : i.IsConsistent := by
  rw [parse] at h
  split at h
  · next p hp =>
    obtain ⟨j, hj, heq⟩ := map_eq_ok_iff.mp h
    cases heq
    have hstart : Progress.start.IsSound :=
      ⟨fun _ h => (nomatch h), fun h => absurd h (Nat.lt_irrefl 0)⟩
    exact (readAll_sound hstart hp).finish hj
  all_goals cases h

end CommandLine

end SchemaEmbed
