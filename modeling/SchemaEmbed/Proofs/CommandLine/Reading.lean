import SchemaEmbed.CommandLine
import SchemaEmbed.Proofs.Outcome

namespace SchemaEmbed.CommandLine

/-!
# Reading a command line

What is read is taken up late, when the next argument is recognised, so that a value which is
missing or empty is found at the argument after it or at the end of the line. For a line of texts
and options that is no matter:

* `OptionGroup` / `Part` — the arguments that give an option, or a text that stands for itself;
* `argsOf` — the arguments of a line;
* `Progress.add` — takes up one part at once;
* `readAll_argsOf` — **reading a line** is taking up its parts one after the other.

The parts describe lines without two dashes alone and without a text that begins with a dash, so
that what an argument is can be told from the argument. Values of a key are plain for the same
reason: behind `--key` a dash begins the next option.
-/

/-! ### Parts of a line -/

/-- The arguments that give an option: one or two of them, in each of the spellings that there
    are. -/
inductive OptionGroup where
  /-- The key, behind an equals sign or as an argument of its own. -/
  | key (value : String) (joined : Bool)
  | atomic
  | check
  /-- A letter for each degree of verbosity. -/
  | verbose (degrees : Nat)
  | verboseWord
  | quiet (long : Bool)
  deriving DecidableEq, Repr

/-- The arguments of an option in its spelling. -/
def OptionGroup.args : OptionGroup → List String
  | key value true => ["--key=" ++ value]
  | key value false => ["--key", value]
  | atomic => ["--atomic"]
  | check => ["--check"]
  | verbose degrees => [String.ofList ('-' :: List.replicate degrees 'v')]
  | verboseWord => ["--verbose"]
  | quiet true => ["--quiet"]
  | quiet false => ["-q"]

/-- A text that stands for itself, or an option. -/
inductive Part where
  | text (s : String)
  | option (g : OptionGroup)
  deriving DecidableEq, Repr

/-- The arguments of a part. -/
def Part.args : Part → List String
  | text s => [s]
  | option g => g.args

/-- The arguments of a line. -/
def argsOf (line : List Part) : List String := line.flatMap Part.args

/-- Whether a text says something and begins with no dash. -/
def IsPlain (s : String) : Prop := s ≠ "" ∧ s.toList.head? ≠ some '-'

instance : DecidablePred IsPlain := fun s =>
  inferInstanceAs (Decidable (s ≠ "" ∧ s.toList.head? ≠ some '-'))

/-- Whether an option is given as it should be: the key is plain, and of letters there is one at
    least. -/
def OptionGroup.IsPlain : OptionGroup → Prop
  | key value _ => CommandLine.IsPlain value
  | verbose degrees => 0 < degrees
  | _ => True

instance : DecidablePred OptionGroup.IsPlain
  | .key value _ => inferInstanceAs (Decidable (IsPlain value))
  | .verbose degrees => inferInstanceAs (Decidable (0 < degrees))
  | .atomic | .check | .verboseWord | .quiet _ => .isTrue trivial

/-- Whether a part is as it should be. -/
def Part.IsPlain : Part → Prop
  | text s => CommandLine.IsPlain s
  | option g => g.IsPlain

/-- A plain text is not empty, and its first character is no dash, so it is not taken for an
    option. -/
theorem IsPlain.head {s : String} (h : IsPlain s) : ∃ c t, s.toList = c :: t ∧ c ≠ '-' := by
  obtain ⟨hne, hhead⟩ := h
  match hs : s.toList with
  | [] => exact absurd (String.toList_eq_nil_iff.mp hs) hne
  | c :: t =>
    rw [hs] at hhead
    exact ⟨c, t, rfl, fun hc => hhead (congrArg some hc)⟩

namespace Progress

variable {p q : Progress}

/-! ### What is pending

Everything but a text begins by taking up what is pending, and after an option nothing is. So
reading an option is the same whether what came before it is pending or was taken up.
-/

/-- Once everything is taken up nothing is pending. -/
theorem pending_of_settle (h : p.settle = .ok q) : q.pending = .nothing := by
  unfold settle at h
  repeat' split at h
  all_goals cases h
  all_goals first
    | rfl
    | assumption

/-- Where nothing is pending there is nothing to take up. -/
theorem settle_of_nothing (h : p.pending = .nothing) : p.settle = .ok p := by
  rw [settle, h]

/-- What begins with taking up does so once: taking up before it makes no difference. -/
theorem settle_bind {α : Type} {f g : Progress → Except Stop α} (hf : ∀ p, f p = p.settle >>= g)
    (p : Progress) : f p = p.settle >>= f := by
  rw [hf]
  refine bind_congr_of_ok fun q hq => ?_
  rw [hf, settle_of_nothing (pending_of_settle hq), ok_bind]

/-- A flag is taken up after what is pending, as if that had been taken up on its own. -/
theorem flag_eq (p : Progress) (a : Argument) : p.flag a = p.settle >>= (·.flag a) :=
  settle_bind (f := (·.flag a)) (fun _ => rfl) p

/-- A degree of verbosity, too, is taken up after what is pending. -/
theorem moreVerbose_eq (p : Progress) : p.moreVerbose = p.settle >>= moreVerbose :=
  settle_bind (fun _ => rfl) p

/-- A flag is taken up at once, so that nothing is pending after it. -/
theorem pending_of_flag {a : Argument} (h : p.flag a = .ok q) : q.pending = .nothing := by
  obtain ⟨r, hr, h⟩ := bind_eq_ok_iff.mp h
  split at h
  · cases h
  · cases h
    exact (pending_of_settle hr : r.pending = .nothing)

/-- A degree of verbosity is taken up at once as well. -/
theorem pending_of_moreVerbose (h : p.moreVerbose = .ok q) : q.pending = .nothing := by
  obtain ⟨r, hr, h⟩ := bind_eq_ok_iff.mp h
  cases h
  exact (pending_of_settle hr : r.pending = .nothing)

/-- Letters of verbosity are taken up one by one. -/
theorem letters_verbose (degrees : Nat) : p.letters (List.replicate (degrees + 1) 'v')
    = p.moreVerbose >>= fun q => q.letters (List.replicate degrees 'v') := rfl

/-- If there is a letter at all, then letters are taken up after what is pending; no letters at
    all would leave it pending. -/
theorem letters_verbose_eq {degrees : Nat} (h : 0 < degrees) :
    p.letters (List.replicate degrees 'v')
      = p.settle >>= fun q => q.letters (List.replicate degrees 'v') := by
  obtain ⟨n, rfl⟩ := Nat.exists_eq_succ_of_ne_zero (Nat.ne_of_gt h)
  refine settle_bind (f := fun q : Progress => q.letters (List.replicate (n + 1) 'v'))
    (g := fun q => q.moreVerbose >>= fun q => q.letters (List.replicate n 'v')) (fun q => ?_) p
  rw [letters_verbose, moreVerbose_eq]
  cases q.settle <;> rfl

/-- After letters nothing is pending, if nothing was before the first. -/
theorem pending_of_letters {degrees : Nat} (hp : p.pending = .nothing)
    (h : p.letters (List.replicate degrees 'v') = .ok q) : q.pending = .nothing := by
  induction degrees generalizing p with
  | zero => cases h; exact hp
  | succ n ih =>
    obtain ⟨r, hr, h⟩ := bind_eq_ok_iff.mp h
    exact ih (pending_of_moreVerbose hr) h

/-! ### Taking up at once

`Progress.add` is what reading a part would do if nothing were put off. A key whose value follows
in the next argument and a text are put off in fact, and `positional_settle` says that taking them
up later comes to the same. Bundles in a row are collected and taken up together.
-/

/-- Takes up a part of a line where nothing is pending: a text becomes the schema or a bundle,
    and an option is given. -/
def add (p : Progress) : Part → Except Stop Progress
  | .text s =>
    if p.schema.isSome then .ok { p with bundles := p.bundles ++ [s] }
    else .ok { p with schema := some s }
  | .option (.key value _) => { p with pending := .keyValue (some value) }.settle
  | .option .atomic => p.flag .atomic
  | .option .check => p.flag .check
  | .option (.verbose degrees) => p.letters (List.replicate degrees 'v')
  | .option .verboseWord => p.moreVerbose
  | .option (.quiet _) => p.flag .quiet

/-- After a part that is taken up at once nothing is pending. -/
theorem pending_of_add {part : Part} (hp : p.pending = .nothing) (h : p.add part = .ok q) :
    q.pending = .nothing := by
  match part with
  | .text s =>
    rw [add] at h
    split at h <;> cases h <;> exact hp
  | .option (.key value _) =>
    rw [add] at h
    exact pending_of_settle h
  | .option .atomic | .option .check | .option (.quiet _) => exact pending_of_flag h
  | .option (.verbose degrees) => exact pending_of_letters hp h
  | .option .verboseWord => exact pending_of_moreVerbose h

/-- Whether a progress can be followed by any part: no value is awaited, and bundles come after the
    schema. -/
structure IsReady (p : Progress) : Prop where
  noValue : p.pending ≠ .keyValue none
  schema : ∀ paths, p.pending = .bundlePaths paths → p.schema.isSome = true

/-- Where nothing is pending any part can follow. -/
theorem IsReady.of_nothing (h : p.pending = .nothing) : p.IsReady where
  noValue := by rw [h]; nofun
  schema := by rw [h]; nofun

/-- Leaves a text pending: the schema first, then a bundle. -/
def awaitText (p : Progress) (s : String) : Progress :=
  { p with pending := if p.schema.isSome then .bundlePaths [s] else .schemaPath s }

/-- Unless bundles are pending, everything is taken up before a text, and then the text is
    pending. -/
theorem positional_eq {s : String} (h : ∀ paths, p.pending ≠ .bundlePaths paths) :
    p.positional s = p.settle.map (·.awaitText s) := by
  have hplace (q : Progress) : (if q.schema.isSome then
      (return { q with pending := .bundlePaths [s] } : Except Stop Progress)
      else return { q with pending := .schemaPath s }) = .ok (q.awaitText s) := by
    rw [awaitText]
    split <;> rfl
  unfold positional
  split
  · next paths hpaths => exact absurd hpaths (h paths)
  · simp only [hplace]
    cases p.settle <;> rfl

/-- A text that is pending is taken up as if it had never been. -/
theorem settle_awaitText {s : String} (hp : p.pending = .nothing) (hs : s ≠ "") :
    (p.awaitText s).settle = p.add (.text s) := by
  have hempty : s.isEmpty = false := by simpa using hs
  rw [awaitText, add]
  cases hschema : p.schema.isSome <;> simp [settle, hempty, hp]

/-- **A text** is taken up after what is pending, whenever that is done, also if bundles before
    it are still collected. -/
theorem positional_settle {s : String} (hp : p.IsReady) (hs : s ≠ "") :
    (p.positional s >>= settle) = p.settle >>= (·.add (.text s)) := by
  by_cases hbundles : ∃ paths, p.pending = .bundlePaths paths
  · -- one more bundle joins those that are pending
    obtain ⟨paths, hpending⟩ := hbundles
    have hempty : s.isEmpty = false := by simpa using hs
    have hschema := hp.schema paths hpending
    rw [positional, hpending, ok_bind, settle, settle, hpending]
    simp only [List.any_append, List.any_cons, hempty, List.any_nil, Bool.or_false]
    split
    · rfl
    · rw [ok_bind, add, if_pos hschema]
      simp only [List.append_assoc]
  · rw [positional_eq fun paths hpaths => hbundles ⟨paths, hpaths⟩]
    cases hq : p.settle with
    | error e => rfl
    | ok q => exact settle_awaitText (pending_of_settle hq) hs

/-- After a text any part can follow: what is pending is a text and not a value, and bundles come
    after the schema. -/
theorem IsReady.positional {s : String} (hp : p.IsReady) (h : p.positional s = .ok q) :
    q.IsReady := by
  by_cases hbundles : ∃ paths, p.pending = .bundlePaths paths
  · obtain ⟨paths, hpending⟩ := hbundles
    rw [Progress.positional, hpending] at h
    cases h
    exact ⟨nofun, fun _ _ => hp.schema paths hpending⟩
  · rw [positional_eq fun paths hpaths => hbundles ⟨paths, hpaths⟩] at h
    obtain ⟨r, -, rfl⟩ := map_eq_ok_iff.mp h
    rw [awaitText]
    cases hschema : r.schema.isSome
    · exact ⟨nofun, nofun⟩
    · exact ⟨nofun, fun _ _ => hschema⟩

end Progress

/-! ### Refusals

Reading a line may also stop because the program is asked to describe itself. No part of a line
does that, so whatever stops a line of parts is an error with a wording.
-/

/-- Whether what stops is a refusal, and no text about the program. -/
def Refuses {α : Type} (x : Except Stop α) : Prop := ∀ stop, x = .error stop → ∃ e, stop = .error e

namespace Refuses

/-- A refusal with an error refuses. -/
theorem error {α : Type} (e : UsageError) : Refuses (.error (.error e) : Except Stop α) := by
  rintro stop ⟨⟩
  exact ⟨e, rfl⟩

/-- What goes through does not stop at all. -/
theorem ok {α : Type} (a : α) : Refuses (.ok a) := nofun

/-- Two steps refuse if both do, the second one whatever the first has given. -/
theorem bind {α β : Type} {x : Except Stop α} {f : α → Except Stop β} (hx : Refuses x)
    (hf : ∀ a, Refuses (f a)) : Refuses (x >>= f) := by
  intro stop hstop
  rcases bind_eq_error_iff.mp hstop with h | ⟨a, -, h⟩
  · exact hx stop h
  · exact hf a stop h

end Refuses

namespace Progress

/-- Taking up refuses a value that is missing, or a key that is repeated, and nothing else stops
    it. -/
theorem settle_refuses (p : Progress) : Refuses p.settle := by
  unfold settle
  repeat' split
  all_goals first
    | exact .error _
    | exact .ok _

/-- A flag is refused if it is repeated. -/
theorem flag_refuses (p : Progress) (a : Argument) : Refuses (p.flag a) := by
  refine p.settle_refuses.bind fun q => ?_
  split
  · exact .error _
  · exact .ok _

/-- Verbosity is refused for what comes before it only. -/
theorem moreVerbose_refuses (p : Progress) : Refuses p.moreVerbose :=
  p.settle_refuses.bind fun _ => .ok _

/-- Letters of verbosity are refused for what comes before them only. -/
theorem letters_refuses (p : Progress) (degrees : Nat) :
    Refuses (p.letters (List.replicate degrees 'v')) := by
  induction degrees generalizing p with
  | zero => exact .ok p
  | succ n ih => exact p.moreVerbose_refuses.bind ih

/-- **A part** is taken up or refused. -/
theorem add_refuses (p : Progress) (part : Part) : Refuses (p.add part) := by
  match part with
  | .text s =>
    rw [add]
    split <;> exact .ok _
  | .option (.key value _) =>
    rw [add]
    exact settle_refuses _
  | .option .atomic | .option .check | .option (.quiet _) => exact p.flag_refuses _
  | .option (.verbose degrees) => exact p.letters_refuses degrees
  | .option .verboseWord => exact p.moreVerbose_refuses

/-- Parts that are taken up one after the other go through or are refused with an error. -/
theorem foldlM_add_refuses (p : Progress) (line : List Part) : Refuses (line.foldlM add p) := by
  induction line generalizing p with
  | nil => exact .ok p
  | cons part line ih =>
    rw [List.foldlM_cons]
    exact (p.add_refuses part).bind ih

end Progress

/-! ### Argument by argument

One equation for each kind of argument, with the rest of the line as it is. The arguments of flags
need none, since `readAll` evaluates on them.
-/

variable {p : Progress} {args : List String}

/-- A plain argument is a text, unless the value of a key is awaited. -/
theorem readAll_text {s : String} (hs : IsPlain s) (hp : p.pending ≠ .keyValue none) :
    readAll false p (s :: args) = p.positional s >>= (readAll false · args) := by
  obtain ⟨c, t, hchars, hc⟩ := hs.head
  rw [readAll, hchars]
  split
  · next h => cases h; exact absurd rfl hc
  · next h => cases h; exact absurd rfl hc
  · next h => cases h; exact absurd rfl hc
  · split
    · next h => exact absurd h hp
    · rfl

/-- If the value of a key is awaited, then a plain argument is that value. -/
theorem readAll_value {s : String} (hs : IsPlain s) :
    readAll false { p with pending := .keyValue none } (s :: args)
      = readAll false { p with pending := .keyValue (some s) } args := by
  obtain ⟨c, t, hchars, hc⟩ := hs.head
  rw [readAll, hchars]
  split
  · next h => cases h; exact absurd rfl hc
  · next h => cases h; exact absurd rfl hc
  · next h => cases h; exact absurd rfl hc
  · rfl

/-- A key in an argument of its own takes up what is pending and awaits its value. -/
theorem readAll_key : readAll false p ("--key" :: args)
    = p.settle >>= fun q => readAll false { q with pending := .keyValue none } args := by
  show ((p.settle >>= _) >>= _) = _
  cases p.settle <;> rfl

/-- A key with its value behind an equals sign is taken up at once, whatever characters the value
    has. -/
theorem readAll_joinedKey (value : String) : readAll false p (("--key=" ++ value) :: args)
    = (p.settle >>= (·.add (.option (.key value true)))) >>= (readAll false · args) := by
  have hname : ("key=".toList ++ value.toList).takeWhile (· != '=') = "key".toList := rfl
  have hvalue : (("key=".toList ++ value.toList).dropWhile (· != '=')).tail?.map String.ofList
      = some value := by
    show some (String.ofList value.toList) = _
    rw [String.ofList_toList]
  rw [readAll, String.toList_append]
  show (p.word ("key=".toList ++ value.toList) >>= _) = _
  rw [Progress.word]
  simp only [hname, hvalue]
  rfl

/-- Letters of verbosity behind one dash are one argument. -/
theorem readAll_letters {degrees : Nat} (h : 0 < degrees) :
    readAll false p (String.ofList ('-' :: List.replicate degrees 'v') :: args)
      = p.letters (List.replicate degrees 'v') >>= (readAll false · args) := by
  obtain ⟨n, rfl⟩ := Nat.exists_eq_succ_of_ne_zero (Nat.ne_of_gt h)
  rw [readAll, String.toList_ofList]
  rfl

/-! ### Part by part

A part is one argument or two, and reading it may leave a state in which something is pending.
`ReadsAs` ties that state to the part taken up at once, and the line follows by induction.
-/

/-- What reading the arguments of a part amounts to: another progress, which any part can follow,
    and which is that part taken up after what was pending. -/
structure ReadsAs (p : Progress) (part : Part) (x : Except Stop Progress) : Prop where
  reads : ∀ args, readAll false p (part.args ++ args) = x >>= (readAll false · args)
  ready : ∀ q, x = .ok q → q.IsReady
  settles : (x >>= Progress.settle) = p.settle >>= (·.add part)

/-- What is taken up at once is read as it should be: nothing is pending after it, so taking up
    again changes nothing. -/
theorem ReadsAs.of_add {part : Part} {x : Except Stop Progress}
    (hx : x = p.settle >>= (·.add part))
    (h : ∀ args, readAll false p (part.args ++ args) = x >>= (readAll false · args)) :
    ReadsAs p part x := by
  have hpending : ∀ q, x = .ok q → q.pending = .nothing := by
    intro q hq
    obtain ⟨r, hr, hq⟩ := bind_eq_ok_iff.mp (hx.symm.trans hq)
    exact Progress.pending_of_add (Progress.pending_of_settle hr) hq
  refine ⟨h, fun q hq => .of_nothing (hpending q hq), Eq.trans ?_ hx⟩
  cases x with
  | error e => rfl
  | ok q => exact Progress.settle_of_nothing (hpending q rfl)

/-- **A part** is read as it is taken up, from any state that it can follow. -/
theorem exists_readsAs {part : Part} (hp : p.IsReady) (hpart : part.IsPlain) :
    ∃ x, ReadsAs p part x := by
  match part with
  | .text s =>
    exact ⟨_, fun _ => readAll_text hpart hp.noValue, fun _ => hp.positional,
      Progress.positional_settle hp hpart.1⟩
  | .option (.key value false) =>
    -- the value is taken up with what comes next
    refine ⟨p.settle.map fun q => { q with pending := .keyValue (some value) }, fun args => ?_,
      fun r hr => ?_, ?_⟩
    · show readAll false p ("--key" :: value :: args) = _
      rw [readAll_key]
      simp only [readAll_value hpart]
      cases p.settle <;> rfl
    · obtain ⟨q, -, rfl⟩ := map_eq_ok_iff.mp hr
      exact ⟨nofun, nofun⟩
    · cases p.settle <;> rfl
  | .option (.key value true) => exact ⟨_, .of_add rfl fun _ => readAll_joinedKey value⟩
  | .option (.verbose degrees) =>
    exact ⟨_, .of_add (Progress.letters_verbose_eq hpart) fun _ => readAll_letters hpart⟩
  | .option .verboseWord => exact ⟨_, .of_add p.moreVerbose_eq fun _ => rfl⟩
  | .option .atomic => exact ⟨_, .of_add (p.flag_eq .atomic) fun _ => rfl⟩
  | .option .check => exact ⟨_, .of_add (p.flag_eq .check) fun _ => rfl⟩
  | .option (.quiet true) => exact ⟨_, .of_add (p.flag_eq .quiet) fun _ => rfl⟩
  | .option (.quiet false) =>
    refine ⟨_, .of_add (p.flag_eq .quiet) fun args => ?_⟩
    show ((p.flag .quiet >>= pure) >>= _) = _
    rw [bind_pure]
    rfl

/-- **Reading a line** is taking up its parts one after the other, after what was pending before
    it. -/
theorem readAll_argsOf {line : List Part} (hp : p.IsReady) (hline : ∀ part ∈ line, part.IsPlain) :
    readAll false p (argsOf line) = p.settle >>= fun q => line.foldlM Progress.add q := by
  induction line generalizing p with
  | nil => exact (bind_pure _).symm
  | cons part line ih =>
    obtain ⟨hpart, hrest⟩ := List.forall_mem_cons.mp hline
    obtain ⟨x, hx⟩ := exists_readsAs hp hpart
    -- the state after the first part is another one than `add` gives, but taking it up makes up
    -- for that
    calc readAll false p (argsOf (part :: line))
        = x >>= (readAll false · (argsOf line)) := hx.reads _
      _ = x >>= fun r => r.settle >>= fun q => line.foldlM Progress.add q :=
        bind_congr_of_ok fun r hr => ih (hx.ready r hr) hrest
      _ = (x >>= Progress.settle) >>= fun q => line.foldlM Progress.add q := (bind_assoc ..).symm
      _ = p.settle >>= fun q => (part :: line).foldlM Progress.add q := by
        rw [hx.settles, bind_assoc]
        simp only [List.foldlM_cons]

end SchemaEmbed.CommandLine
