import Mathlib.Algebra.Ring.Nat
import Mathlib.Data.List.Induction
import Mathlib.Tactic.Simproc.ExistsAndEq
import SchemaEmbed.Proofs.CommandLine.Invocation
import SchemaEmbed.Proofs.CommandLine.Reading

namespace SchemaEmbed.CommandLine

/-!
# Where options stand

Users put options wherever they think of them. A line is described here by what is on it, texts and
options, and the outcome of reading it by functions of the two lists alone, so that the order in
which they are mixed cannot matter:

* `Compatible` — whether options can be given together: none but verbosity twice, and none that
  exclude each other;
* `asked` — what schema, bundles and options ask for, without regard to their places;
* `taken` — what there is of a line once it is taken up;
* `parse_argsOf_iff` — **a line** is accepted if its options are compatible and it names a schema,
  and then asks for what schema, bundles and options do;
* `arrangement_irrelevant` — so all arrangements of the same texts and options have one outcome.

The induction is on the line from its end: `taken line` is the state after a whole line, and one
more part is one more step (`add_text`, `add_option`).
-/

/-! ### Lines

A line keeps its parts in order. What it asks for is put together from the list of its texts, whose
order says which file is which, and the list of its options, whose order will turn out to be no
matter.
-/

/-- The text that a part is. -/
def Part.text? : Part → Option String
  | text s => some s
  | option _ => none

/-- The option that a part gives. -/
def Part.group? : Part → Option OptionGroup
  | text _ => none
  | option g => some g

/-- The texts of a line in order: the schema if there is one, then the bundles. -/
def textsOf (line : List Part) : List String := line.filterMap Part.text?

/-- The options of a line in order. -/
def groupsOf (line : List Part) : List OptionGroup := line.filterMap Part.group?

namespace OptionGroup

/-- Which option is given. -/
def argument : OptionGroup → Argument
  | key .. => .key
  | atomic => .atomic
  | check => .check
  | verbose _ | verboseWord => .verbose
  | quiet _ => .quiet

/-- The key that is given. -/
def key? : OptionGroup → Option String
  | key value _ => some value
  | _ => none

/-- How many degrees of verbosity are given. -/
def degrees : OptionGroup → Nat
  | verbose degrees => degrees
  | verboseWord => 1
  | _ => 0

end OptionGroup

/-- The options that are given. -/
def argumentsOf (groups : List OptionGroup) : List Argument := groups.map OptionGroup.argument

/-- Whether nothing but verbosity is given twice. -/
def Once (given : List Argument) : Prop := ∀ a, a ≠ .verbose → given.count a ≤ 1

/-- Whether options can be given together. -/
structure Compatible (groups : List OptionGroup) : Prop where
  once : Once (argumentsOf groups)
  apart : ∀ a ∈ argumentsOf groups, ∀ b ∈ argumentsOf groups, a.excludes b = false

/-- The keys that are given. -/
def keysOf (groups : List OptionGroup) : List String := groups.filterMap OptionGroup.key?

/-- The degrees of verbosity, as far as they are counted. -/
def verbosityOf (groups : List OptionGroup) : Nat :=
  min (groups.map OptionGroup.degrees).sum maxVerbose

/-- What schema, bundles and options ask for. -/
def asked (schema : String) (bundles : List String) (groups : List OptionGroup) : Invocation where
  schema
  bundles
  options := {
    key := (keysOf groups).head?.getD Options.defaultKey
    mode := if .atomic ∈ argumentsOf groups then .atomic else .inPlace
    check := decide (.check ∈ argumentsOf groups) }
  verbose := verbosityOf groups
  quiet := decide (.quiet ∈ argumentsOf groups)

/-! ### What is taken up

The state after a line is given outright, not by running anything. Only the order of `given`
depends on where options stand, and nothing that is asked of it does.
-/

/-- The options after one more is given; verbosity takes the place where it was last given, and
    so is there only once. -/
def give (given : List Argument) (a : Argument) : List Argument :=
  (if a = .verbose then given.filter (· != .verbose) else given) ++ [a]

/-- What there is of a line after its last part is taken up, so that nothing is pending. -/
def taken (line : List Part) : Progress where
  schema := (textsOf line).head?
  bundles := (textsOf line).tail
  key := (keysOf (groupsOf line)).head?
  verbose := verbosityOf (groupsOf line)
  given := (argumentsOf (groupsOf line)).foldl give []
  pending := .nothing

/-- With one more option at the end, options are given once if they were before and this one is
    new or is verbosity. -/
theorem once_concat {given : List Argument} {a : Argument} :
    Once (given ++ [a]) ↔ Once given ∧ (a = .verbose ∨ a ∉ given) := by
  constructor
  · intro h
    refine ⟨fun b hb => Nat.le_trans ((List.sublist_append_left _ _).count_le b) (h b hb), ?_⟩
    by_cases ha : a = .verbose
    · exact .inl ha
    · have hcount := h a ha
      rw [List.count_append, List.count_singleton_self] at hcount
      exact .inr (List.count_eq_zero.mp (by omega))
  · rintro ⟨h, ha⟩ b hb
    rw [List.count_append]
    by_cases hab : a = b
    · subst hab
      have hcount := List.count_eq_zero.mpr (ha.resolve_left hb)
      have hone : [a].count a = 1 := List.count_singleton_self
      omega
    · rw [List.count_singleton, beq_eq_false_iff_ne.mpr hab]
      simpa using h b hb

/-- Giving an option adds it and loses no other, since verbosity is only moved. -/
theorem mem_give {given : List Argument} {a b : Argument} :
    b ∈ give given a ↔ b ∈ given ∨ b = a := by
  rw [give, List.mem_append, List.mem_singleton]
  split
  · next ha =>
    subst ha
    by_cases hb : b = .verbose <;> simp [hb]
  · rfl

/-- After giving several options, those are there that were there before and those that were
    given. -/
theorem mem_foldl_give {given arguments : List Argument} {a : Argument} :
    a ∈ arguments.foldl give given ↔ a ∈ given ∨ a ∈ arguments := by
  induction arguments generalizing given with
  | nil => simp
  | cons b arguments ih => rw [List.foldl_cons, ih, mem_give, List.mem_cons, or_assoc]

/-- Whether an option is among those that were given does not depend on the order of a line. -/
theorem mem_given_taken {line : List Part} {a : Argument} :
    a ∈ (taken line).given ↔ a ∈ argumentsOf (groupsOf line) :=
  mem_foldl_give.trans (by simp)

/-! ### Taking up one more part

Each part either always goes through, as texts and verbosity do, or goes through unless it was
there before. `Yields` says both at once: under its condition the outcome is the state that is
given, and otherwise it is an error.
-/

variable {line : List Part}

/-- One more text is taken up whatever was there before: it is the schema if there was none, and
    a bundle otherwise. -/
theorem add_text (s : String) :
    (taken line).add (.text s) = .ok (taken (line ++ [.text s])) := by
  have htexts : textsOf (line ++ [.text s]) = textsOf line ++ [s] := by simp [textsOf, Part.text?]
  have hgroups : groupsOf (line ++ [.text s]) = groupsOf line := by simp [groupsOf, Part.group?]
  rw [Progress.add, taken, taken, htexts, hgroups]
  cases textsOf line <;> rfl

/-- One more option adds its key, its degrees of verbosity, and itself. -/
theorem taken_option (g : OptionGroup) : taken (line ++ [.option g]) = { taken line with
    key := (taken line).key.or g.key?
    verbose := min ((taken line).verbose + g.degrees) maxVerbose
    given := give (taken line).given g.argument } := by
  have htexts : textsOf (line ++ [.option g]) = textsOf line := by simp [textsOf, Part.text?]
  have hgroups : groupsOf (line ++ [.option g]) = groupsOf line ++ [g] := by
    simp [groupsOf, Part.group?]
  have hkey : (keysOf (groupsOf line ++ [g])).head? = (keysOf (groupsOf line)).head?.or g.key? := by
    rw [keysOf, List.filterMap_append, List.head?_append]
    cases hg : g.key? <;> simp [hg, keysOf]
  have hverbose : verbosityOf (groupsOf line ++ [g])
      = min (verbosityOf (groupsOf line) + g.degrees) maxVerbose := by
    simp only [verbosityOf, List.map_append, List.sum_append, List.map_cons, List.map_nil,
      List.sum_cons, List.sum_nil]
    omega
  rw [taken, htexts, hgroups, hkey, hverbose, argumentsOf, List.map_append, List.foldl_append]
  rfl

/-- A flag is taken up if it was not given before, and is an error if it was. -/
theorem flag_yields {p : Progress} (hp : p.pending = .nothing) (a : Argument) :
    Yields (a ∉ p.given) (p.flag a) { p with given := p.given ++ [a] } := by
  rw [Progress.flag, Progress.settle_of_nothing hp, ok_bind]
  by_cases ha : a ∈ p.given
  · exact .of_error (if_pos (List.contains_iff_mem.mpr ha)) (not_not_intro ha)
  · exact .of_ok (if_neg (mt List.contains_iff_mem.mp ha)) ha

/-- A key is taken up if there was none, and is an error if there was one, even the same. -/
theorem key_yields {p : Progress} {value : String} (hp : p.pending = .nothing)
    (hvalue : value ≠ "") :
    Yields (p.key = none) ({ p with pending := .keyValue (some value) } : Progress).settle
      { p with key := some value, given := p.given ++ [.key] } := by
  have hempty : value.isEmpty = false := by simpa using hvalue
  cases hkey : p.key with
  | none => exact .of_ok (by simp [Progress.settle, hempty, hp]) rfl
  | some k => exact .of_error (by simp [Progress.settle]; rfl) (Option.some_ne_none k)

/-- A degree of verbosity is always taken up, and counts up to the largest count. -/
theorem moreVerbose_eq_ok {p : Progress} (hp : p.pending = .nothing) :
    p.moreVerbose = .ok { p with
      verbose := min (p.verbose + 1) maxVerbose
      given := give p.given .verbose } := by
  rw [Progress.moreVerbose, Progress.settle_of_nothing hp]
  rfl

/-- Giving verbosity again changes nothing, since it stays where it was last given. -/
theorem give_give_verbose (given : List Argument) :
    give (give given .verbose) .verbose = give given .verbose := by
  simp [give]

/-- Several letters of verbosity in one argument count as so many degrees, and verbosity is given
    once. -/
theorem letters_eq_ok {p : Progress} (hp : p.pending = .nothing) (degrees : Nat) :
    p.letters (List.replicate (degrees + 1) 'v') = .ok { p with
      verbose := min (p.verbose + (degrees + 1)) maxVerbose
      given := give p.given .verbose } := by
  induction degrees generalizing p with
  | zero =>
    rw [Progress.letters_verbose, moreVerbose_eq_ok hp]
    rfl
  | succ n ih =>
    -- capping after each letter or once at the end is the same
    have hverbose : min (min (p.verbose + 1) maxVerbose + (n + 1)) maxVerbose
        = min (p.verbose + (n + 1 + 1)) maxVerbose := by omega
    have hrest := @ih { p with
      verbose := min (p.verbose + 1) maxVerbose
      given := give p.given .verbose } hp
    rw [Progress.letters_verbose, moreVerbose_eq_ok hp, ok_bind, hrest]
    simp only [give_give_verbose, hverbose]

/-- There is no key exactly if the option is not among those that were given. -/
theorem head_keysOf_eq_none_iff {groups : List OptionGroup} :
    (keysOf groups).head? = none ↔ .key ∉ argumentsOf groups := by
  rw [List.head?_eq_none_iff, keysOf, List.filterMap_eq_nil_iff, argumentsOf, List.mem_map]
  constructor
  · rintro h ⟨g, hg, hkey⟩
    have hnone := h g hg
    cases g with
    | key => cases hnone
    | _ => cases hkey
  · intro h g hg
    cases g with
    | key => exact absurd ⟨_, hg, rfl⟩ h
    | _ => rfl

/-- **One more option** is taken up if it was not given, unless it is verbosity, which always is. -/
theorem add_option {g : OptionGroup} (hg : g.IsPlain) :
    Yields (g.argument = .verbose ∨ g.argument ∉ argumentsOf (groupsOf line))
      ((taken line).add (.option g)) (taken (line ++ [.option g])) := by
  have hcapped : min (taken line).verbose maxVerbose = (taken line).verbose :=
    Nat.min_eq_left (Nat.min_le_right _ _)
  have hflag {a : Argument} (ha : a ≠ .verbose) :
      Yields (a = .verbose ∨ a ∉ argumentsOf (groupsOf line)) ((taken line).flag a)
        { taken line with given := give (taken line).given a } := by
    rw [give, if_neg ha]
    exact (flag_yields rfl a).congr (by simp [ha, mem_given_taken])
  rw [taken_option]
  match g with
  | .atomic | .check | .quiet _ =>
    simp only [OptionGroup.key?, Option.or_none, OptionGroup.degrees, Nat.add_zero, hcapped]
    exact hflag nofun
  | .verbose degrees =>
    obtain ⟨n, rfl⟩ := Nat.exists_eq_succ_of_ne_zero (Nat.ne_of_gt hg)
    simp only [OptionGroup.key?, Option.or_none]
    exact .of_ok (letters_eq_ok rfl n) (.inl rfl)
  | .verboseWord =>
    simp only [OptionGroup.key?, Option.or_none]
    exact .of_ok (moreVerbose_eq_ok rfl) (.inl rfl)
  | .key value _ =>
    have hkey := key_yields (p := taken line) rfl hg.1
    have hnone : (taken line).key = none ↔ .key ∉ argumentsOf (groupsOf line) :=
      head_keysOf_eq_none_iff
    simp only [OptionGroup.key?, OptionGroup.degrees, Nat.add_zero, hcapped]
    refine ⟨fun h => ?_, fun h => hkey.2 fun hnot => h (.inr (hnone.mp hnot))⟩
    have hnone := hnone.mpr (h.resolve_left nofun)
    rw [hnone, Option.none_or]
    exact hkey.1 hnone

/-- **A line** is taken up if nothing but verbosity is given twice, and is refused otherwise. -/
theorem foldlM_add (hline : ∀ part ∈ line, part.IsPlain) :
    Yields (Once (argumentsOf (groupsOf line))) (line.foldlM Progress.add .start) (taken line) := by
  -- from the end: what `taken` says of a line follows from the line without its last part
  induction line using List.reverseRecOn with
  | nil => exact .of_ok rfl fun a _ => Nat.zero_le 1
  | append_singleton line part ih =>
    obtain ⟨hparts, hpart⟩ := List.forall_mem_append.mp hline
    rw [List.foldlM_append]
    simp only [List.foldlM_cons, List.foldlM_nil, bind_pure]
    match part with
    | .text s =>
      have hgroups : groupsOf (line ++ [.text s]) = groupsOf line := by
        simp [groupsOf, Part.group?]
      rw [hgroups]
      exact (ih hparts).bind_ok (add_text s)
    | .option g =>
      have hgroups : argumentsOf (groupsOf (line ++ [.option g]))
          = argumentsOf (groupsOf line) ++ [g.argument] := by
        simp [groupsOf, argumentsOf, Part.group?]
      rw [hgroups]
      exact ((ih hparts).bind (add_option (hpart _ (List.mem_singleton_self _)))).congr
        once_concat.symm

/-! ### What a line asks for

Reading the arguments is the fold of `Progress.add` over the parts, and the fold ends in `taken`.
What is left is `finish`, which looks for two options that exclude each other and for the schema.
-/

/-- A line that is taken up asks for something if no two of its options exclude each other and it
    has a text, the first of which is the schema. -/
theorem finish_taken {i : Invocation} : (taken line).finish = .ok i ↔
    (∀ a ∈ argumentsOf (groupsOf line), ∀ b ∈ argumentsOf (groupsOf line), a.excludes b = false)
      ∧ ∃ schema bundles, textsOf line = schema :: bundles
        ∧ asked schema bundles (groupsOf line) = i := by
  have hcontains (a : Argument) :
      (taken line).given.contains a = decide (a ∈ argumentsOf (groupsOf line)) := by
    rw [List.contains_eq_mem, decide_eq_decide]
    exact mem_given_taken
  have hconflict : findConflict (taken line).given = none ↔
      ∀ a ∈ argumentsOf (groupsOf line), ∀ b ∈ argumentsOf (groupsOf line),
        a.excludes b = false := by
    simp only [findConflict_eq_none_iff, mem_given_taken]
  rw [← hconflict, Progress.finish]
  simp only [hcontains, decide_eq_true_eq]
  cases hfind : findConflict (taken line).given with
  | some found => simp
  | none =>
    cases htexts : textsOf line with
    | nil => simp [taken, htexts]
    | cons schema bundles => simp [taken, htexts, asked]

/-- **A line** is accepted if its options are compatible and it names a schema, and then asks for
    what schema, bundles and options do. -/
theorem parse_argsOf_iff {r : Request} (hline : ∀ part ∈ line, part.IsPlain) :
    parse (argsOf line) = .ok r ↔ Compatible (groupsOf line) ∧
      ∃ schema bundles, textsOf line = schema :: bundles
        ∧ r = .run (asked schema bundles (groupsOf line)) := by
  have hread : readAll false .start (argsOf line) = line.foldlM Progress.add .start := by
    rw [readAll_argsOf (.of_nothing rfl) hline, Progress.settle_of_nothing rfl, ok_bind]
  have hyields := foldlM_add hline
  rw [parse, hread]
  by_cases honce : Once (argumentsOf (groupsOf line))
  · rw [hyields.1 honce]
    simp only [map_eq_ok_iff, finish_taken]
    constructor
    · rintro ⟨i, ⟨hapart, schema, bundles, htexts, rfl⟩, rfl⟩
      exact ⟨⟨honce, hapart⟩, schema, bundles, htexts, rfl⟩
    · rintro ⟨hgroups, schema, bundles, htexts, rfl⟩
      exact ⟨_, ⟨hgroups.apart, schema, bundles, htexts, rfl⟩, rfl⟩
  · -- a repeated option stops the line, with an error and not with a text about the program
    obtain ⟨stop, hstop⟩ := hyields.2 honce
    obtain ⟨e, rfl⟩ := Progress.foldlM_add_refuses _ _ stop hstop
    rw [hstop]
    exact iff_of_false (fun h => by cases h) fun h => honce h.1.once

/-! ### Arrangements

Two arrangements have the same texts, and their options are permutations of one another.
Compatibility counts and quantifies, which a permutation does not change; what is asked for takes
the head of the list of keys, which for compatible options has one entry at most.
-/

/-- Whether a line has certain texts in their order, and certain options in any order, before,
    between or after them. -/
structure Arranges (texts : List String) (groups : List OptionGroup) (line : List Part) : Prop where
  texts : textsOf line = texts
  groups : (groupsOf line).Perm groups

/-- If texts and options are plain, then so is every part of a line that arranges them. -/
theorem Arranges.isPlain {texts : List String} {groups : List OptionGroup}
    (h : Arranges texts groups line) (htexts : ∀ s ∈ texts, IsPlain s)
    (hgroups : ∀ g ∈ groups, g.IsPlain) : ∀ part ∈ line, part.IsPlain := by
  intro part hpart
  cases part with
  | text s =>
    have hs : s ∈ textsOf line := List.mem_filterMap.mpr ⟨_, hpart, rfl⟩
    exact htexts s (h.texts ▸ hs)
  | option g =>
    have hg : g ∈ groupsOf line := List.mem_filterMap.mpr ⟨_, hpart, rfl⟩
    exact hgroups g (h.groups.mem_iff.mp hg)

/-- Whether options are compatible does not depend on their order: counts and members of a list
    are those of its permutations. -/
theorem compatible_perm {groups groups' : List OptionGroup} (h : groups.Perm groups') :
    Compatible groups ↔ Compatible groups' := by
  have hgiven : (argumentsOf groups).Perm (argumentsOf groups') := h.map _
  have honce : Once (argumentsOf groups) ↔ Once (argumentsOf groups') := by
    simp only [Once, hgiven.count_eq]
  constructor
  · rintro ⟨h, hapart⟩
    exact ⟨honce.mp h, by simpa only [hgiven.mem_iff] using hapart⟩
  · rintro ⟨h, hapart⟩
    exact ⟨honce.mpr h, by simpa only [hgiven.mem_iff] using hapart⟩

/-- There are as many keys as times that the option is given. -/
theorem length_keysOf (groups : List OptionGroup) :
    (keysOf groups).length = (argumentsOf groups).count .key := by
  have hkey :
      (fun g : OptionGroup => g.key?.isSome) = (· == Argument.key) ∘ OptionGroup.argument := by
    funext g
    cases g <;> rfl
  rw [keysOf, List.length_filterMap_eq_countP, hkey, argumentsOf, List.count_eq_countP,
    List.countP_map]

/-- A list of one entry at most is its only permutation. -/
theorem eq_of_perm_of_length_le {α : Type} {xs ys : List α} (h : xs.Perm ys)
    (hlength : xs.length ≤ 1) : xs = ys := by
  match xs with
  | [] => exact h.nil_eq
  | [x] => exact (List.perm_singleton.mp h.symm).symm

/-- **What compatible options ask for** does not depend on their order. Of two different keys it
    would, but those are not compatible. -/
theorem asked_perm {groups groups' : List OptionGroup} (h : groups.Perm groups')
    (honce : Once (argumentsOf groups)) (schema : String) (bundles : List String) :
    asked schema bundles groups = asked schema bundles groups' := by
  have hkeys : keysOf groups = keysOf groups' := by
    refine eq_of_perm_of_length_le (h.filterMap _) ?_
    rw [length_keysOf]
    exact honce .key nofun
  have hgiven (a : Argument) : a ∈ argumentsOf groups ↔ a ∈ argumentsOf groups' :=
    (h.map _).mem_iff
  have hverbose : verbosityOf groups = verbosityOf groups' := by
    rw [verbosityOf, verbosityOf, (h.map _).sum_nat]
  simp only [asked, hkeys, hgiven, hverbose]

/-- **Where options stand** is no matter.  If schema, bundles and key do not begin with a dash:

* of all arrangements of options before, between and after schema and bundles, each is accepted if
  one is, and asks for the same;
* one is accepted if the options are compatible: nothing but verbosity is given twice, and nothing
  that excludes something else that is given.

And any line that is accepted names a key and asks for nothing that excludes something else. -/
theorem arrangement_irrelevant :
    (∀ (schema : String) (bundles : List String) (groups : List OptionGroup),
      (∀ s ∈ schema :: bundles, IsPlain s) → (∀ g ∈ groups, g.IsPlain) →
      ∀ line, Arranges (schema :: bundles) groups line →
        (∀ r, parse (argsOf line) = .ok r → r = .run (asked schema bundles groups)
          ∧ ∀ line', Arranges (schema :: bundles) groups line' → parse (argsOf line') = .ok r)
        ∧ ((∃ r, parse (argsOf line) = .ok r) ↔ Compatible groups))
    ∧ ∀ args i, parse args = .ok (.run i) → i.IsConsistent := by
  refine ⟨fun schema bundles groups htexts hgroups line hline => ?_,
    fun _ _ => isConsistent_of_parse⟩
  -- the outcome is told by schema, bundles and options alone
  have houtcome {line : List Part} (hline : Arranges (schema :: bundles) groups line)
      {r : Request} :
      parse (argsOf line) = .ok r ↔ Compatible groups ∧ r = .run (asked schema bundles groups) := by
    rw [parse_argsOf_iff (hline.isPlain htexts hgroups), compatible_perm hline.groups, hline.texts]
    refine and_congr_right fun hcompatible => ?_
    have hsame := asked_perm hline.groups.symm hcompatible.once
    simp [hsame]
  refine ⟨fun r hr => ?_, ?_⟩
  · obtain ⟨hcompatible, rfl⟩ := (houtcome hline).mp hr
    exact ⟨rfl, fun line' hline' => (houtcome hline').mpr ⟨hcompatible, rfl⟩⟩
  · simp [houtcome hline]

/-- A line with its options in front and one with them in between ask for the same; verbosity
    counts up to its largest count. -/
theorem arrangement_irrelevant_verbose :
    let groups : List OptionGroup := [.key "k" false, .verbose 300, .verboseWord]
    let line : List Part := .option .verboseWord :: .option (.key "k" false)
      :: .option (.verbose 300) :: [.text "s.json", .text "b.json"]
    let line' : List Part := [.text "s.json", .option (.key "k" false), .option (.verbose 300),
      .text "b.json", .option .verboseWord]
    let i : Invocation := ⟨"s.json", ["b.json"], ⟨"k", .inPlace, false⟩, maxVerbose, false⟩
    (∀ s ∈ ["s.json", "b.json"], IsPlain s) ∧ (∀ g ∈ groups, g.IsPlain)
      ∧ Arranges ["s.json", "b.json"] groups line ∧ Arranges ["s.json", "b.json"] groups line'
      ∧ Compatible groups ∧ parse (argsOf line) = .ok (.run i)
      ∧ parse (argsOf line') = .ok (.run i) ∧ i.IsConsistent := by
  intro groups line line' i
  have htexts : ∀ s ∈ ["s.json", "b.json"], IsPlain s := by decide
  have hgroups : ∀ g ∈ groups, g.IsPlain := by decide
  have hline : Arranges ["s.json", "b.json"] groups line := ⟨rfl, by decide⟩
  have hline' : Arranges ["s.json", "b.json"] groups line' := ⟨rfl, by decide⟩
  have hcompatible : Compatible groups := ⟨fun a => by cases a <;> decide, by decide⟩
  obtain ⟨harranged, hconsistent⟩ := arrangement_irrelevant
  obtain ⟨hsame, haccepted⟩ := harranged "s.json" ["b.json"] groups htexts hgroups line hline
  obtain ⟨r, hr⟩ := haccepted.mpr hcompatible
  obtain ⟨rfl, hall⟩ := hsame r hr
  have hi : asked "s.json" ["b.json"] groups = i := by decide
  have hparse := hall line' hline'
  rw [hi] at hr hparse
  exact ⟨htexts, hgroups, hline, hline', hcompatible, hr, hparse, hconsistent _ i hr⟩

end SchemaEmbed.CommandLine
